import LayeredConfig.Catalog
import LayeredConfig.Proofs.Legibility

/-!
# Source literals, read from the front

The source literal of a value tells the value, as long as no floating point number is in it: a text is
quoted, and its end is the first quote that is not escaped (`Quoted.quote_append_injective`); a span names its
unit; and a list is closed by a bracket. The literals of one format are read off the front of whatever
follows them, as long as that begins as what follows an item of a list does (`Stops`); so lists of lists are
no harder than lists (`Format.literal_append_injective`).

Nothing closes the name of a symbol, so that lists of symbols cannot be read in this way.
-/

namespace LayeredConfig

/-- What is made of characters of one class ends where the class does. -/
theorem append_injective_of_class {p : Char → Bool} {x y r t : List Char} (hx : ∀ c ∈ x, p c = true)
    (hy : ∀ c ∈ y, p c = true) (hr : ∀ c ∈ r.head?, p c = false) (ht : ∀ c ∈ t.head?, p c = false)
    (h : x ++ r = y ++ t) : x = y ∧ r = t := by
  have hhead : ∀ {s : List Char}, (∀ c ∈ s.head?, p c = false) → s.takeWhile p = [] := by
    intro s hs
    cases s with
    | nil => rfl
    | cons c s => simp [hs c rfl]
  have htake := congrArg (List.takeWhile p) h
  rw [List.takeWhile_append_of_pos hx, List.takeWhile_append_of_pos hy, hhead hr, hhead ht, List.append_nil,
    List.append_nil] at htake
  subst htake
  exact ⟨rfl, List.append_cancel_left h⟩

/-! ## Quoted texts -/

namespace Quoted

theorem hex_eq (n : Nat) : hex n = if n < 16 then [n.digitChar] else hex (n / 16) ++ [(n % 16).digitChar] :=
  Nat.toDigits_eq_if (by decide)

theorem hex_ne_nil (n : Nat) : hex n ≠ [] := by
  rw [hex_eq]
  split <;> simp

/-- A number is read back from its digits, the last of which is its remainder. -/
theorem hex_injective {m n : Nat} (h : hex m = hex n) : m = n := by
  have hdigit : ∀ a < 16, ∀ b < 16, Nat.digitChar a = Nat.digitChar b → a = b := by decide
  have hshort : ∀ {a k : Nat}, [Nat.digitChar a] ≠ hex (k / 16) ++ [Nat.digitChar (k % 16)] := fun he =>
    hex_ne_nil _ (by simpa using congrArg List.dropLast he.symm)
  induction m using Nat.strongRecOn generalizing n with
  | ind m ih =>
      rw [hex_eq m, hex_eq n] at h
      split at h
      · next hm =>
        split at h
        · next hn => exact hdigit m hm n hn (List.singleton_inj.mp h)
        · exact absurd h hshort
      · next hm =>
        split at h
        · exact absurd h.symm hshort
        · obtain ⟨hquot, hrem⟩ := List.append_inj' h rfl
          have hq : m / 16 = n / 16 := ih (m / 16) (by omega) hquot
          have hr : m % 16 = n % 16 :=
            hdigit _ (Nat.mod_lt m (by decide)) _ (Nat.mod_lt n (by decide)) (List.singleton_inj.mp hrem)
          omega

theorem brace_notMem_hex (n : Nat) : ∀ c ∈ hex n, (c != '\x7d') = true := by
  have hdigit : ∀ k : Nat, (k.digitChar != '\x7d') = true := fun k =>
    bne_iff_ne.mpr (Nat.digitChar_ne '\x7d' (by decide))
  induction n using Nat.strongRecOn with
  | ind n ih =>
      intro c hc
      rw [hex_eq] at hc
      split at hc
      · rw [List.mem_singleton.mp hc]
        exact hdigit n
      · rcases List.mem_append.mp hc with hc | hc
        · exact ih (n / 16) (by omega) c hc
        · rw [List.mem_singleton.mp hc]
          exact hdigit _

/-- The character that a letter behind a backslash stands for. -/
def lettered? : Char → Option Char
  | '0' => some '\x00'
  | 't' => some '\t'
  | 'r' => some '\r'
  | 'n' => some '\n'
  | '"' => some '"'
  | '\\' => some '\\'
  | _ => none

/-- The forms that a character can take between the quotes. -/
inductive Form (c : Char) : List Char → Prop where
  | itself (hq : c ≠ '"') (hb : c ≠ '\\') : Form c [c]
  | letter {x : Char} (hx : lettered? x = some c) : Form c ['\\', x]
  | code : Form c (['\\', 'u', '\x7b'] ++ hex c.toNat ++ ['\x7d'])

theorem form_escape (c : Char) : Form c (escape c) := by
  unfold escape
  split
  · exact .letter rfl
  · exact .letter rfl
  · exact .letter rfl
  · exact .letter rfl
  · exact .letter rfl
  · exact .letter rfl
  · next hq hb =>
    split
    · exact .code
    · exact .itself hq hb

/-- **The form of a character is read off the front of what follows it.** -/
theorem Form.append_injective {c d : Char} {x y r t : List Char} (hx : Form c x) (hy : Form d y)
    (h : x ++ r = y ++ t) : c = d ∧ r = t := by
  cases hx with
  | itself hq hb =>
      cases hy with
      | itself => simpa using h
      | letter => exact absurd (List.cons.inj h).1 hb
      | code => exact absurd (List.cons.inj h).1 hb
  | @letter a ha =>
      cases hy with
      | itself hq hb => exact absurd (List.cons.inj h).1.symm hb
      | @letter b hb =>
          obtain ⟨rfl, rfl⟩ : a = b ∧ r = t := by simpa using h
          exact ⟨Option.some.inj (ha.symm.trans hb), rfl⟩
      | code =>
          obtain ⟨rfl, -⟩ : a = 'u' ∧ _ := by simpa using h
          cases ha
  | code =>
      cases hy with
      | itself hq hb => exact absurd (List.cons.inj h).1.symm hb
      | @letter b hb =>
          obtain ⟨rfl, -⟩ : 'u' = b ∧ _ := by simpa using h
          cases hb
      | code =>
          simp only [List.append_assoc, List.append_cancel_left_eq] at h
          have hbrace : ∀ s : List Char, ∀ a ∈ (['\x7d'] ++ s).head?, (a != '\x7d') = false := by simp
          obtain ⟨hhex, hrest⟩ := append_injective_of_class (brace_notMem_hex _) (brace_notMem_hex _)
            (hbrace r) (hbrace t) h
          exact ⟨Char.toNat_inj.mp (hex_injective hhex), List.append_cancel_left hrest⟩

/-- No form begins with the quote that ends a text. -/
theorem Form.exists_cons {c : Char} {x : List Char} (hx : Form c x) : ∃ a l, x = a :: l ∧ a ≠ '"' := by
  cases hx with
  | itself hq _ => exact ⟨_, _, rfl, hq⟩
  | letter => exact ⟨_, _, rfl, by decide⟩
  | code => exact ⟨_, _, rfl, by decide⟩

theorem escaped_append_injective {x y r t : List Char}
    (h : x.flatMap escape ++ '"' :: r = y.flatMap escape ++ '"' :: t) : x = y ∧ r = t := by
  -- A text that has ended does not go on with a character.
  have hend : ∀ (c : Char) (z s s' : List Char), '"' :: s ≠ (c :: z).flatMap escape ++ '"' :: s' := by
    intro c z s s' he
    obtain ⟨a, l, hl, ha⟩ := (form_escape c).exists_cons
    rw [List.flatMap_cons, hl] at he
    exact ha (List.cons.inj he).1.symm
  induction x generalizing y with
  | nil =>
      cases y with
      | nil => exact ⟨rfl, (List.cons.inj h).2⟩
      | cons d y => exact absurd h (hend d y r t)
  | cons c x ih =>
      cases y with
      | nil => exact absurd h.symm (hend c x t r)
      | cons d y =>
          rw [List.flatMap_cons, List.flatMap_cons, List.append_assoc, List.append_assoc] at h
          obtain ⟨rfl, hrest⟩ := (form_escape c).append_injective (form_escape d) h
          obtain ⟨rfl, rfl⟩ := ih hrest
          exact ⟨rfl, rfl⟩

/-- **A quoted text ends at the first quote that is not escaped, and tells the text.** -/
theorem quote_append_injective {s s' : String} {r t : List Char}
    (h : (quote s).toList ++ r = (quote s').toList ++ t) : s = s' ∧ r = t := by
  simp only [quote, String.toList_ofList, List.cons_append, List.append_assoc, List.cons.injEq, true_and] at h
  obtain ⟨hs, hr⟩ := escaped_append_injective h
  exact ⟨String.toList_inj.mp hs, hr⟩

end Quoted

/-! ## Numbers and spans -/

theorem natRepr_append_injective {m n : Nat} {r t : List Char} (hr : ∀ c ∈ r.head?, c.isDigit = false)
    (ht : ∀ c ∈ t.head?, c.isDigit = false) (h : m.repr.toList ++ r = n.repr.toList ++ t) : m = n ∧ r = t := by
  obtain ⟨hrepr, hrest⟩ := append_injective_of_class (fun _ hc => isDigit_of_mem_repr hc)
    (fun _ hc => isDigit_of_mem_repr hc) hr ht h
  exact ⟨eq_of_natRepr_eq (String.toList_inj.mp hrepr), hrest⟩

theorem exists_cons_natRepr (n : Nat) : ∃ a l, n.repr.toList = a :: l ∧ a.isDigit = true := by
  rcases hn : n.repr.toList with - | ⟨a, l⟩
  · have hpos := Nat.length_toDigits_pos (b := 10) (n := n)
    rw [← Nat.toList_repr, hn] at hpos
    exact absurd hpos (Nat.lt_irrefl 0)
  · exact ⟨a, l, rfl, isDigit_of_mem_repr (hn ▸ List.mem_cons_self ..)⟩

theorem intRepr_append_injective {m n : Int} {r t : List Char} (hr : ∀ c ∈ r.head?, c.isDigit = false)
    (ht : ∀ c ∈ t.head?, c.isDigit = false) (h : (Int.repr m).toList ++ r = (Int.repr n).toList ++ t) :
    m = n ∧ r = t := by
  have hneg : ∀ k : Nat, (Int.repr (Int.negSucc k)).toList = '-' :: (k + 1).repr.toList := fun _ =>
    String.toList_append
  have hsign : ∀ (k : Nat) (s s' : List Char), k.repr.toList ++ s ≠ '-' :: s' := by
    intro k s s' he
    obtain ⟨a, ds, hk, ha⟩ := exists_cons_natRepr k
    rw [hk] at he
    rw [(List.cons.inj he).1] at ha
    exact absurd ha (by decide)
  rcases m with m | m <;> rcases n with n | n
  · obtain ⟨rfl, hrest⟩ := natRepr_append_injective hr ht h
    exact ⟨rfl, hrest⟩
  · rw [hneg] at h
    exact absurd h (hsign m r _)
  · rw [hneg] at h
    exact absurd h.symm (hsign n t _)
  · rw [hneg, hneg] at h
    obtain ⟨he, hrest⟩ := natRepr_append_injective hr ht (List.cons.inj h).2
    exact ⟨congrArg Int.negSucc (Nat.succ.inj he), hrest⟩

/-- The name of a unit in the literal of a span. -/
def TimeUnit.word : TimeUnit → String
  | second => "secs"
  | millisecond => "millis"
  | microsecond => "micros"
  | nanosecond => "nanos"

theorem TimeUnit.word_injective {u v : TimeUnit} (h : u.word.toList = v.word.toList) : u = v := by
  revert h
  cases u <;> cases v <;> decide

namespace TimeSpan

theorem literal_eq (d : TimeSpan) :
    d.literal = "Duration::from_" ++ d.wholeUnit.word ++ "(" ++ d.wholeCount.repr ++ ")" := by
  unfold literal TimeUnit.word
  cases d.wholeUnit <;> rfl

/-- **The literal of a span tells the unit, and how many of them.** -/
theorem literal_append_injective {d e : TimeSpan} {r t : List Char}
    (h : d.literal.toList ++ r = e.literal.toList ++ t) : d = e ∧ r = t := by
  have hword : ∀ u : TimeUnit, ∀ c ∈ u.word.toList, c.isAlpha = true := by
    intro u
    cases u <;> simp [TimeUnit.word]
  have hopen : ∀ s : List Char, ∀ c ∈ ('(' :: s).head?, c.isAlpha = false := by simp
  have hclose : ∀ s : List Char, ∀ c ∈ (')' :: s).head?, c.isDigit = false := by simp
  have hlist : ∀ (f : TimeSpan) (s : List Char), f.literal.toList ++ s = "Duration::from_".toList ++
      (f.wholeUnit.word.toList ++ '(' :: (f.wholeCount.repr.toList ++ ')' :: s)) := by
    intro f s
    simp [literal_eq]
  rw [hlist, hlist] at h
  obtain ⟨hunit, hrest⟩ := append_injective_of_class (hword _) (hword _) (hopen _) (hopen _)
    (List.append_cancel_left h)
  obtain ⟨hcount, hr⟩ := natRepr_append_injective (hclose r) (hclose t) (List.cons.inj hrest).2
  exact ⟨eq_of_whole (TimeUnit.word_injective hunit) hcount, (List.cons.inj hr).2⟩

end TimeSpan

/-! ## Values -/

variable {τ : Type}

namespace Value

mutual
/-- Whether a value is made of truth values, whole numbers, texts, spans and symbols: no floating point number
is in it, and no node. -/
def isExact : Value τ → Bool
  | float _ => false
  | list vs => allExact vs
  | node _ => false
  | _ => true

def allExact : List (Value τ) → Bool
  | [] => true
  | v :: vs => v.isExact && allExact vs
end

/-- The text of the items of a list, up to the bracket that closes it. -/
def joined (typeName : τ → String) (vs : List (Value τ)) : List Char :=
  (", ".intercalate (literalItems typeName vs)).toList

/-- What follows an item of a list: the next items, or the bracket that closes the list and what is behind. -/
def behind (typeName : τ → String) (r : List Char) : List (Value τ) → List Char
  | [] => ']' :: r
  | v :: vs => ',' :: ' ' :: (joined typeName (v :: vs) ++ ']' :: r)

theorem joined_cons (typeName : τ → String) (v : Value τ) (vs : List (Value τ)) (r : List Char) :
    joined typeName (v :: vs) ++ ']' :: r = (v.literal typeName).toList ++ behind typeName r vs := by
  cases vs with
  | nil => simp [joined, literalItems, behind]
  | cons w vs =>
      rw [joined, literalItems, literalItems, String.intercalate_cons_cons, behind, joined, literalItems]
      simp

theorem literal_list (typeName : τ → String) (vs : List (Value τ)) (r : List Char) :
    ((list vs).literal typeName).toList ++ r = "vec![".toList ++ (joined typeName vs ++ ']' :: r) := by
  simp [literal, joined]

end Value

namespace Format

open Value

/-- What can follow an item of a list. -/
def Stops (r : List Char) : Prop := ∀ c ∈ r.head?, c = ',' ∨ c = ']'

theorem stops_behind (typeName : τ → String) (r : List Char) (vs : List (Value τ)) :
    Stops (behind typeName r vs) := by
  cases vs with
  | nil => exact fun c hc => Or.inr (Option.some.inj hc).symm
  | cons v vs => exact fun c hc => Or.inl (Option.some.inj hc).symm

theorem Stops.isDigit {r : List Char} (hr : Stops r) : ∀ c ∈ r.head?, c.isDigit = false := by
  intro c hc
  rcases hr c hc with rfl | rfl <;> rfl

/-- The enumeration whose symbols are the values of a format, or stand in them. -/
def enumeration? : Format τ → Option Enumeration
  | symbol e => some e
  | list f => f.enumeration?
  | _ => none

variable {f : Format τ} {v w : Value τ} {typeName : τ → String}

/-- No literal begins with the bracket that closes a list. -/
theorem close_ne_literal (hf : f.enumeration? = none) (hv : f.Fits v) (he : v.isExact = true) (r t : List Char) :
    ']' :: r ≠ (v.literal typeName).toList ++ t := by
  cases v with
  | bool b => cases b <;> simp [literal]
  | int n =>
      cases n with
      | ofNat n =>
          obtain ⟨a, l, hn, ha⟩ := exists_cons_natRepr n
          have hliteral : ((Value.int (Int.ofNat n) : Value τ).literal typeName).toList = a :: l := hn
          rw [hliteral]
          rintro h
          rw [← (List.cons.inj h).1] at ha
          exact absurd ha (by decide)
      | negSucc n =>
          have hliteral : ((Value.int (Int.negSucc n) : Value τ).literal typeName).toList =
              '-' :: (n + 1).repr.toList := String.toList_append
          simp [hliteral]
  | text s => simp [literal, Quoted.quote]
  | span d => simp [literal, TimeSpan.literal_eq]
  | symbol s =>
      cases f with
      | symbol e => cases hf
      | _ => exact hv.elim
  | list vs => simp [literal]
  | float x => cases he
  | node n => cases he

theorem allExact_cons {vs : List (Value τ)} (h : allExact (v :: vs) = true) :
    v.isExact = true ∧ allExact vs = true :=
  Bool.and_eq_true_iff.mp h

/-- The items of a list are read off one by one, if the items themselves are read off the front. -/
theorem joined_injective (hf : f.enumeration? = none)
    (hitem : ∀ {v w : Value τ}, f.Fits v → f.Fits w → v.isExact = true → w.isExact = true →
      ∀ {r t : List Char}, Stops r → Stops t →
        (v.literal typeName).toList ++ r = (w.literal typeName).toList ++ t → v = w ∧ r = t)
    {vs ws : List (Value τ)} (hvs : ∀ v ∈ vs, f.Fits v) (hws : ∀ w ∈ ws, f.Fits w) (he : allExact vs = true)
    (he' : allExact ws = true) {r t : List Char}
    (h : joined typeName vs ++ ']' :: r = joined typeName ws ++ ']' :: t) : vs = ws ∧ r = t := by
  induction vs generalizing ws with
  | nil =>
      cases ws with
      | nil => exact ⟨rfl, (List.cons.inj h).2⟩
      | cons w ws =>
          rw [joined_cons] at h
          exact absurd h (close_ne_literal hf (hws w (List.mem_cons_self ..)) (allExact_cons he').1 r _)
  | cons v vs ih =>
      cases ws with
      | nil =>
          rw [joined_cons] at h
          exact absurd h.symm (close_ne_literal hf (hvs v (List.mem_cons_self ..)) (allExact_cons he).1 t _)
      | cons w ws =>
          rw [joined_cons, joined_cons] at h
          obtain ⟨hv, hvs'⟩ := List.forall_mem_cons.mp hvs
          obtain ⟨hw, hws'⟩ := List.forall_mem_cons.mp hws
          obtain ⟨rfl, hrest⟩ := hitem hv hw (allExact_cons he).1 (allExact_cons he').1
            (stops_behind typeName r vs) (stops_behind typeName t ws) h
          cases vs with
          | nil =>
              cases ws with
              | nil => exact ⟨rfl, (List.cons.inj hrest).2⟩
              | cons => exact absurd (List.cons.inj hrest).1 (by decide)
          | cons v' vs =>
              cases ws with
              | nil => exact absurd (List.cons.inj hrest).1 (by decide)
              | cons w' ws =>
                  have htail := (List.cons.inj (List.cons.inj hrest).2).2
                  obtain ⟨hlist, hr⟩ := ih hvs' hws' (allExact_cons he).2 (allExact_cons he').2 htail
                  exact ⟨congrArg (v :: ·) hlist, hr⟩

/-- **Literals of one format are read off the front of what follows them.** -/
theorem literal_append_injective (hf : f.enumeration? = none) (hv : f.Fits v) (hw : f.Fits w)
    (he : v.isExact = true) (he' : w.isExact = true) {r t : List Char} (hr : Stops r) (ht : Stops t)
    (h : (v.literal typeName).toList ++ r = (w.literal typeName).toList ++ t) : v = w ∧ r = t := by
  induction f generalizing v w r t with
  | bool =>
      cases v with
      | bool a =>
          cases w with
          | bool b => cases a <;> cases b <;> simp_all [literal]
          | _ => exact hw.elim
      | _ => exact hv.elim
  | int32 =>
      cases v with
      | int a =>
          cases w with
          | int b =>
              obtain ⟨rfl, hrest⟩ := intRepr_append_injective hr.isDigit ht.isDigit h
              exact ⟨rfl, hrest⟩
          | _ => exact hw.elim
      | _ => exact hv.elim
  | int64 =>
      cases v with
      | int a =>
          cases w with
          | int b =>
              obtain ⟨rfl, hrest⟩ := intRepr_append_injective hr.isDigit ht.isDigit h
              exact ⟨rfl, hrest⟩
          | _ => exact hw.elim
      | _ => exact hv.elim
  | float =>
      cases v with
      | float x => cases he
      | _ => exact hv.elim
  | text =>
      cases v with
      | text a =>
          cases w with
          | text b =>
              obtain ⟨rfl, hrest⟩ := Quoted.quote_append_injective h
              exact ⟨rfl, hrest⟩
          | _ => exact hw.elim
      | _ => exact hv.elim
  | assignment =>
      cases v with
      | text a =>
          cases w with
          | text b =>
              obtain ⟨rfl, hrest⟩ := Quoted.quote_append_injective h
              exact ⟨rfl, hrest⟩
          | _ => exact hw.elim
      | _ => exact hv.elim
  | span =>
      cases v with
      | span a =>
          cases w with
          | span b =>
              obtain ⟨rfl, hrest⟩ := TimeSpan.literal_append_injective h
              exact ⟨rfl, hrest⟩
          | _ => exact hw.elim
      | _ => exact hv.elim
  | symbol e => cases hf
  | list f ih =>
      cases v with
      | list vs =>
          cases w with
          | list ws =>
              have hitems : f.enumeration? = none := hf
              rw [literal_list, literal_list] at h
              obtain ⟨rfl, hrest⟩ := joined_injective hitems (ih hitems) hv hw he he' (List.append_cancel_left h)
              exact ⟨rfl, hrest⟩
          | _ => exact hw.elim
      | _ => exact hv.elim
  | node t =>
      cases v with
      | node n => cases he
      | _ => exact hv.elim

end Format

end LayeredConfig
