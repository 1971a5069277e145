import LayeredConfig.Value

/-!
# Formats

A *format* says which values a characteristic takes and what they stand for. Every format has a type of
contents (`Format.Content`), a reader and a writer. The two are inverse: what the reader accepts is written
back unchanged (`write_of_read`), and what the writer produces is read back (`read_write`), environment
variables with an equals sign in their key apart. Such variables are never read (`readable_of_read`).
-/

namespace LayeredConfig

/-- A closed enumeration: its name and the names of its members in order. -/
structure Enumeration where
  name : String
  members : List String
deriving DecidableEq, Repr

/-- A variable of the environment of a process. -/
structure EnvironmentVariable where
  key : String
  value : String
deriving DecidableEq, Repr

namespace EnvironmentVariable

/-- The text `key=value`. -/
def text (v : EnvironmentVariable) : String := v.key ++ "=" ++ v.value

/-- Splits a text at its first equals sign. -/
def ofText? (s : String) : Option EnvironmentVariable :=
  match s.toList.dropWhile (· != '=') with
  | [] => none
  | _ :: value => some ⟨String.ofList (s.toList.takeWhile (· != '=')), String.ofList value⟩

/-- Orders variables by key, then by value. -/
def compareVariables (x y : EnvironmentVariable) : Ordering :=
  (compare x.key y.key).then (compare x.value y.value)

theorem text_of_ofText? {s : String} {v : EnvironmentVariable} (h : ofText? s = some v) :
    v.text = s := by
  unfold ofText? at h
  split at h
  · simp at h
  · next c value hd =>
    have hc : c = '=' := by
      have := List.head?_dropWhile_not (· != '=') s.toList
      simpa [hd] using this
    have hs := List.takeWhile_append_dropWhile (p := (· != '=')) (l := s.toList)
    rw [hd, hc] at hs
    simp only [Option.some.injEq] at h
    subst h
    apply String.toList_inj.mp
    simpa [text] using hs

theorem ofText?_text {v : EnvironmentVariable} (h : '=' ∉ v.key.toList) : ofText? v.text = some v := by
  have hne : ∀ c ∈ v.key.toList, (c != '=') = true := by
    intro c hc
    simp only [bne_iff_ne, ne_eq]
    exact fun e => h (e ▸ hc)
  have hd : v.text.toList.dropWhile (· != '=') = '=' :: v.value.toList := by
    simp only [text, String.toList_append, List.append_assoc]
    rw [List.dropWhile_append_of_pos hne]
    rfl
  have ht : v.text.toList.takeWhile (· != '=') = v.key.toList := by
    simp only [text, String.toList_append, List.append_assoc]
    rw [List.takeWhile_append_of_pos hne]
    simp
  simp [ofText?, hd, ht]

/-- A key that has been read has no equals sign. -/
theorem notMem_key_of_ofText? {s : String} {v : EnvironmentVariable} (h : ofText? s = some v) :
    '=' ∉ v.key.toList := by
  unfold ofText? at h
  split at h
  · cases h
  · cases h
    rw [String.toList_ofList]
    intro hmem
    have hne := List.all_eq_true.mp List.all_takeWhile _ hmem
    simp at hne

end EnvironmentVariable

/-- The form of the values that a characteristic takes. -/
inductive Format (τ : Type) where
  | bool
  | int32
  | int64
  | float
  | text
  | span
  | symbol (e : Enumeration)
  | assignment
  | list (items : Format τ)
  | node (type : τ)
deriving DecidableEq, Repr

namespace Format

variable {τ : Type}

def kind : Format τ → Kind τ
  | bool => .bool
  | int32 => .int
  | int64 => .int
  | float => .float
  | text => .text
  | span => .span
  | symbol e => .symbol e.name
  | assignment => .text
  | list _ => .list
  | node t => .node t

def nodeType? : Format τ → Option τ
  | node t => some t
  | _ => none

/-- Whether the values of a format are plain data, with no node in them. -/
def isData : Format τ → Bool
  | node _ => false
  | list f => f.isData
  | _ => true

/-- What the values of a format stand for. -/
def Content : Format τ → Type
  | bool => Bool
  | int32 => Int32
  | int64 => Int64
  | float => Binary64
  | text => String
  | span => TimeSpan
  | symbol e => { m : String // m ∈ e.members }
  | assignment => EnvironmentVariable
  | list f => List f.Content
  | node t => { n : Node τ // n.type = t }

/-- The value that stands for a content. -/
def write : (f : Format τ) → f.Content → Value τ
  | bool, b => .bool b
  | int32, n => .int (Int32.toInt n)
  | int64, n => .int (Int64.toInt n)
  | float, x => .float x
  | text, s => .text s
  | span, d => .span d
  | symbol e, m => .symbol ⟨e.name, m.val⟩
  | assignment, v => .text (EnvironmentVariable.text v)
  | list f, xs => .list (List.map f.write xs)
  | node _, n => .node n.val

/-- The 32-bit integer that a number is, if it is in range. -/
def int32? (n : Int) : Option Int32 :=
  if -2147483648 ≤ n ∧ n < 2147483648 then some (Int32.ofInt n) else none

/-- The 64-bit integer that a number is, if it is in range. -/
def int64? (n : Int) : Option Int64 :=
  if -9223372036854775808 ≤ n ∧ n < 9223372036854775808 then some (Int64.ofInt n) else none

/-- The content that a value stands for, if the format takes the value. -/
def read [DecidableEq τ] : (f : Format τ) → Value τ → Option f.Content
  | bool, .bool b => some b
  | int32, .int n => int32? n
  | int64, .int n => int64? n
  | float, .float x => some x
  | text, .text s => some s
  | span, .span d => some d
  | symbol e, .symbol s =>
    if h : s.enumeration = e.name ∧ s.member ∈ e.members then some ⟨s.member, h.2⟩ else none
  | assignment, .text s => EnvironmentVariable.ofText? s
  | list f, .list xs => List.mapM f.read xs
  | node t, .node n => if h : n.type = t then some ⟨n, h⟩ else none
  | _, _ => none

/-- Whether a value may be stored: its kind is the format's, and it stands for a content. -/
def accepts [DecidableEq τ] (f : Format τ) (v : Value τ) : Bool :=
  v.kind == f.kind && (f.read v).isSome

/-! ## Reader and writer are inverse -/

/-- Whether a content survives being written: the key of a variable must not contain an equals sign. -/
def Readable : (f : Format τ) → f.Content → Prop
  | assignment, v => '=' ∉ (EnvironmentVariable.key v).toList
  | list f, xs => ∀ x : f.Content, List.Mem x xs → f.Readable x
  | _, _ => True

theorem mapM_eq_some_of_forall {α β : Type} {g : β → Option α} {w : α → β} :
    ∀ {xs : List α}, (∀ x ∈ xs, g (w x) = some x) → (xs.map w).mapM g = some xs
  | [], _ => rfl
  | x :: xs, h => by
    have hx := h x (by simp)
    have hxs := mapM_eq_some_of_forall (g := g) (w := w) fun y hy => h y (List.mem_cons_of_mem x hy)
    simp [List.mapM_cons, hx, hxs]

theorem map_eq_of_mapM_eq_some {α β : Type} {g : β → Option α} {w : α → β}
    (h : ∀ y x, g y = some x → w x = y) : ∀ {ys : List β} {xs : List α}, ys.mapM g = some xs → xs.map w = ys
  | [], xs, hm => by
    simp at hm
    simp [hm]
  | y :: ys, xs, hm => by
    simp only [List.mapM_cons, Option.bind_eq_bind, Option.bind_eq_some_iff, Option.pure_def,
      Option.some.injEq] at hm
    obtain ⟨x, hx, zs, hzs, rfl⟩ := hm
    simp [h y x hx, map_eq_of_mapM_eq_some h hzs]

theorem exists_mem_of_mapM_eq_some {α β : Type} {g : β → Option α} {ys : List β} {xs : List α}
    (h : ys.mapM g = some xs) {x : α} (hx : x ∈ xs) : ∃ y ∈ ys, g y = some x := by
  induction ys generalizing xs with
  | nil =>
    cases h
    cases hx
  | cons y ys ih =>
    simp only [List.mapM_cons, Option.bind_eq_bind, Option.bind_eq_some_iff, Option.pure_def,
      Option.some.injEq] at h
    obtain ⟨z, hz, zs, hzs, rfl⟩ := h
    rcases List.mem_cons.mp hx with rfl | hx
    · exact ⟨y, List.mem_cons_self, hz⟩
    · obtain ⟨w, hw, hgw⟩ := ih hzs hx
      exact ⟨w, List.mem_cons_of_mem y hw, hgw⟩

theorem int32?_toInt (n : Int32) : int32? n.toInt = some n := by
  have h1 := Int32.le_toInt n
  have h2 := Int32.toInt_lt n
  rw [int32?, if_pos ⟨h1, h2⟩, Int32.ofInt_toInt]

theorem int64?_toInt (n : Int64) : int64? n.toInt = some n := by
  have h1 := Int64.le_toInt n
  have h2 := Int64.toInt_lt n
  rw [int64?, if_pos ⟨h1, h2⟩, Int64.ofInt_toInt]

theorem toInt_of_int32? {n : Int} {m : Int32} (h : int32? n = some m) : m.toInt = n := by
  unfold int32? at h
  split at h
  · next hn =>
    rw [Option.some.injEq] at h
    rw [← h, Int32.toInt_ofInt_of_le hn.1 hn.2]
  · simp at h

theorem toInt_of_int64? {n : Int} {m : Int64} (h : int64? n = some m) : m.toInt = n := by
  unfold int64? at h
  split at h
  · next hn =>
    rw [Option.some.injEq] at h
    rw [← h, Int64.toInt_ofInt_of_le hn.1 hn.2]
  · simp at h

/-- **The reader undoes the writer.** -/
theorem read_write [DecidableEq τ] (f : Format τ) (x : f.Content) (h : f.Readable x) :
    f.read (f.write x) = some x := by
  induction f with
  | bool => rfl
  | int32 => exact int32?_toInt x
  | int64 => exact int64?_toInt x
  | float => rfl
  | text => rfl
  | span => rfl
  | symbol e => exact dif_pos ⟨rfl, x.property⟩
  | assignment => exact EnvironmentVariable.ofText?_text h
  | list f ih => exact mapM_eq_some_of_forall fun y hy => ih y (h y hy)
  | node t => exact dif_pos x.property

/-- Whatever has been read survives being written. -/
theorem readable_of_read [DecidableEq τ] (f : Format τ) (v : Value τ) (x : f.Content) (h : f.read v = some x) :
    f.Readable x := by
  induction f generalizing v with
  | assignment =>
    cases v with
    | text s => exact EnvironmentVariable.notMem_key_of_ofText? h
    | _ => cases h
  | list f ih =>
    cases v with
    | list vs =>
      intro y hy
      obtain ⟨w, -, hw⟩ := exists_mem_of_mapM_eq_some h hy
      exact ih w y hw
    | _ => cases h
  | _ => trivial

/-- **The writer undoes the reader.** -/
theorem write_of_read [DecidableEq τ] (f : Format τ) (v : Value τ) (x : f.Content)
    (h : f.read v = some x) : f.write x = v := by
  induction f generalizing v with
  | bool =>
    cases v <;> cases h
    rfl
  | int32 =>
    cases v with
    | int n => exact congrArg Value.int (toInt_of_int32? h)
    | _ => cases h
  | int64 =>
    cases v with
    | int n => exact congrArg Value.int (toInt_of_int64? h)
    | _ => cases h
  | float =>
    cases v <;> cases h
    rfl
  | text =>
    cases v <;> cases h
    rfl
  | span =>
    cases v <;> cases h
    rfl
  | symbol e =>
    cases v with
    | symbol s =>
      by_cases hs : s.enumeration = e.name ∧ s.member ∈ e.members
      · have hx : some ⟨s.member, hs.2⟩ = some x := (dif_pos hs).symm.trans h
        rw [← Option.some.inj hx]
        exact congrArg (fun n => Value.symbol ⟨n, s.member⟩) hs.1.symm
      · exact absurd ((dif_neg hs).symm.trans h) (by simp)
    | _ => cases h
  | assignment =>
    cases v with
    | text s => exact congrArg Value.text (EnvironmentVariable.text_of_ofText? h)
    | _ => cases h
  | list f ih =>
    cases v with
    | list xs => exact congrArg Value.list (map_eq_of_mapM_eq_some (fun y x hy => ih y x hy) h)
    | _ => cases h
  | node t =>
    cases v with
    | node n =>
      by_cases hn : n.type = t
      · have hx : some ⟨n, hn⟩ = some x := (dif_pos hn).symm.trans h
        rw [← Option.some.inj hx]
        rfl
      · exact absurd ((dif_neg hn).symm.trans h) (by simp)
    | _ => cases h

end Format

end LayeredConfig
