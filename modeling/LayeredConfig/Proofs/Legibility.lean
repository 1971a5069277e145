import LayeredConfig.Proofs.Typing

/-!
# Texts that tell values apart

A display text is *legible* when it tells the value that it shows from every other value of the format. Truth
values, numbers, texts, spans and symbols are legible (`Format.display_injective`): a span is read back from
the digits at the head of its text and the unit behind them.

A list is shown as its items joined by a comma and a space, and that can be undone only where the separator
does not stand in an item, and where the list is not a single empty item (`Separable`). The names of symbols
are harmless, so that lists of symbols are legible; lists of texts are not.
-/

namespace LayeredConfig

/-! ## Numbers and spans -/

/-- The number that the digits at the head of a text stand for. -/
def leadingNumber (s : List Char) : Nat := Nat.ofDigitChars 10 (s.takeWhile Char.isDigit) 0

theorem isDigit_of_mem_repr {n : Nat} {c : Char} (hc : c ∈ n.repr.toList) : c.isDigit = true := by
  rw [Nat.toList_repr] at hc
  exact Nat.isDigit_of_mem_toDigits (by decide) (by decide) hc

/-- A number is read back from its digits, and what follows them is left over. -/
theorem leadingNumber_repr (n : Nat) {rest : List Char} (h : ∀ c ∈ rest.head?, c.isDigit = false) :
    leadingNumber (n.repr.toList ++ rest) = n ∧ (n.repr.toList ++ rest).dropWhile Char.isDigit = rest := by
  have hdigits : ∀ c ∈ n.repr.toList, c.isDigit = true := fun _ hc => isDigit_of_mem_repr hc
  have hrest : rest.takeWhile Char.isDigit = [] ∧ rest.dropWhile Char.isDigit = rest := by
    cases rest with
    | nil => exact ⟨rfl, rfl⟩
    | cons c rest =>
        have hc : c.isDigit = false := h c rfl
        simp [hc]
  constructor
  · rw [leadingNumber, List.takeWhile_append_of_pos hdigits, hrest.1, List.append_nil, Nat.toList_repr,
      Nat.ofDigitChars_ten_toDigits]
  · rw [List.dropWhile_append_of_pos hdigits, hrest.2]

theorem eq_of_natRepr_eq {m n : Nat} (h : m.repr = n.repr) : m = n := by
  have hread : ∀ a : Nat, leadingNumber a.repr.toList = a := by
    intro a
    have hnil : ∀ c ∈ ([] : List Char).head?, c.isDigit = false := fun _ hc => nomatch hc
    have ha := (leadingNumber_repr a hnil).1
    rwa [List.append_nil] at ha
  rw [← hread m, h, hread n]

/-- The digits of a natural number do not begin with a sign. -/
theorem natRepr_ne_negated (m n : Nat) : m.repr ≠ "-" ++ n.repr := by
  intro h
  have hsign : '-' ∈ m.repr.toList := by
    rw [h, String.toList_append]
    exact List.mem_append_left _ (by decide)
  exact absurd (isDigit_of_mem_repr hsign) (by decide)

theorem eq_of_intRepr_eq {m n : Int} (h : Int.repr m = Int.repr n) : m = n := by
  rcases m with m | m <;> rcases n with n | n
  · exact congrArg Int.ofNat (eq_of_natRepr_eq h)
  · exact absurd h (natRepr_ne_negated m (n + 1))
  · exact absurd h.symm (natRepr_ne_negated n (m + 1))
  · have hdigits : (m + 1).repr = (n + 1).repr := (String.append_right_inj "-").mp h
    exact congrArg Int.negSucc (Nat.succ.inj (eq_of_natRepr_eq hdigits))

/-- The letters behind the digits of a span. -/
def TimeUnit.suffix : TimeUnit → String
  | second => "s"
  | millisecond => "ms"
  | microsecond => "us"
  | nanosecond => "ns"

namespace TimeSpan

theorem text_eq (d : TimeSpan) : d.text = d.wholeCount.repr ++ d.wholeUnit.suffix := by
  unfold text TimeUnit.suffix
  cases d.wholeUnit <;> rfl

/-- A span is its whole units. -/
theorem eq_of_whole {d e : TimeSpan} (hunit : d.wholeUnit = e.wholeUnit) (hcount : d.wholeCount = e.wholeCount) :
    d = e := by
  have hlength := d.wholeCount_mul_length
  rw [hcount, hunit, e.wholeCount_mul_length] at hlength
  cases d
  cases e
  exact congrArg TimeSpan.mk hlength.symm

/-- The text of a span tells the span. -/
theorem text_injective {d e : TimeSpan} (h : d.text = e.text) : d = e := by
  have hsuffix : ∀ u : TimeUnit, ∀ c ∈ u.suffix.toList.head?, c.isDigit = false := by
    intro u
    cases u <;> simp [TimeUnit.suffix]
  have hchars := congrArg String.toList h
  rw [text_eq, text_eq, String.toList_append, String.toList_append] at hchars
  obtain ⟨hcount, hunit⟩ := leadingNumber_repr d.wholeCount (hsuffix d.wholeUnit)
  rw [hchars] at hcount hunit
  rw [(leadingNumber_repr e.wholeCount (hsuffix e.wholeUnit)).1] at hcount
  rw [(leadingNumber_repr e.wholeCount (hsuffix e.wholeUnit)).2] at hunit
  have hunits : e.wholeUnit = d.wholeUnit := by
    revert hunit
    cases d.wholeUnit <;> cases e.wholeUnit <;> simp [TimeUnit.suffix]
  exact eq_of_whole hunits.symm hcount.symm

end TimeSpan

/-! ## Joined texts -/

/-- Whether some texts can be told from the text that joins them: the separator is in none of them, and they are
not a single empty text, which reads like no text at all. -/
def Separable (ss : List String) : Prop := ss ≠ [""] ∧ ∀ s ∈ ss, ¬ [',', ' '] <:+: s.toList

instance (ss : List String) : Decidable (Separable ss) := inferInstanceAs (Decidable (_ ∧ _))

/-- A text that does not have a separator of two characters in it ends at the first separator. -/
theorem append_separator_injective {p q : Char} (hpq : p ≠ q) {x y r t : List Char} (hx : ¬ [p, q] <:+: x)
    (hy : ¬ [p, q] <:+: y) (h : x ++ p :: q :: r = y ++ p :: q :: t) : x = y ∧ r = t := by
  induction x generalizing y with
  | nil =>
      rcases y with - | ⟨c, - | ⟨d, y⟩⟩
      · simpa using h
      · exact absurd (by simpa using h : p = c ∧ q = p ∧ r = q :: t).2.1.symm hpq
      · obtain ⟨rfl, rfl, -⟩ : p = c ∧ q = d ∧ r = _ := by simpa using h
        exact absurd ⟨[], y, rfl⟩ hy
  | cons a x ih =>
      rcases y with - | ⟨c, y⟩
      · rcases x with - | ⟨d, x⟩
        · exact absurd (by simpa using h : a = p ∧ p = q ∧ q :: r = t).2.1 hpq
        · obtain ⟨rfl, rfl, -⟩ : a = p ∧ d = q ∧ _ = t := by simpa using h
          exact absurd ⟨[], x, rfl⟩ hx
      · obtain ⟨rfl, hrest⟩ := List.cons.inj h
        obtain ⟨rfl, hr⟩ := ih (fun hi => hx (hi.trans (List.suffix_cons _ _).isInfix))
          (fun hi => hy (hi.trans (List.suffix_cons _ _).isInfix)) hrest
        exact ⟨rfl, hr⟩

theorem joined_cons_injective {x y : String} {xs ys : List String}
    (hx : ∀ s ∈ x :: xs, ¬ [',', ' '] <:+: s.toList) (hy : ∀ s ∈ y :: ys, ¬ [',', ' '] <:+: s.toList)
    (h : ", ".intercalate (x :: xs) = ", ".intercalate (y :: ys)) : x :: xs = y :: ys := by
  induction xs generalizing x y ys with
  | nil =>
      rcases ys with - | ⟨y', ys⟩
      · simpa using h
      · -- The only text would have the separator of the others in it.
        refine absurd ?_ (hx x (List.mem_cons_self ..))
        rw [String.intercalate_singleton, String.intercalate_cons_cons] at h
        rw [h, String.toList_append, String.toList_append]
        exact ⟨y.toList, _, rfl⟩
  | cons x' xs ih =>
      rcases ys with - | ⟨y', ys⟩
      · refine absurd ?_ (hy y (List.mem_cons_self ..))
        rw [String.intercalate_singleton, String.intercalate_cons_cons] at h
        rw [← h, String.toList_append, String.toList_append]
        exact ⟨x.toList, _, rfl⟩
      · rw [String.intercalate_cons_cons, String.intercalate_cons_cons] at h
        have hchars := congrArg String.toList h
        rw [String.toList_append, String.toList_append, String.toList_append, String.toList_append,
          List.append_assoc, List.append_assoc] at hchars
        obtain ⟨hhead, htail⟩ := append_separator_injective (by decide) (hx x (List.mem_cons_self ..))
          (hy y (List.mem_cons_self ..)) hchars
        rw [String.toList_inj.mp hhead, ih (fun s hs => hx s (List.mem_cons_of_mem _ hs))
          (fun s hs => hy s (List.mem_cons_of_mem _ hs)) (String.toList_inj.mp htail)]

/-- **Separable texts are told apart by the text that joins them.** -/
theorem Separable.eq_of_joined {xs ys : List String} (hx : Separable xs) (hy : Separable ys)
    (h : ", ".intercalate xs = ", ".intercalate ys) : xs = ys := by
  -- No text joins to the empty text, and so does a single empty text, but no others.
  have hnil : ∀ {zs : List String}, Separable zs → "" = ", ".intercalate zs → zs = [] := by
    intro zs hz he
    rcases zs with - | ⟨z, - | ⟨z', zs⟩⟩
    · rfl
    · rw [String.intercalate_singleton] at he
      exact absurd (congrArg (fun s => [s]) he.symm) hz.1
    · have hempty := congrArg String.toList he
      simp at hempty
  rcases xs with - | ⟨x, xs⟩
  · exact (hnil hy h).symm
  · rcases ys with - | ⟨y, ys⟩
    · exact hnil hx h.symm
    · exact joined_cons_injective hx.2 hy.2 h

variable {τ : Type}

def Value.texts? : Value τ → Option (List String)
  | list vs => vs.mapM text?
  | _ => none

theorem Value.texts?_list (ss : List String) : (list (ss.map text) : Value τ).texts? = some ss :=
  Format.mapM_eq_some_of_forall fun _ _ => rfl

theorem Value.displayItems_eq_map (nodeName : Node τ → String) (vs : List (Value τ)) :
    displayItems nodeName vs = vs.map fun v => v.display nodeName := by
  induction vs with
  | nil => rfl
  | cons v vs ih => rw [displayItems, ih, List.map_cons]

theorem Value.display_texts (nodeName : Node τ → String) (ss : List String) :
    (Value.list (ss.map .text)).display nodeName = "[" ++ ", ".intercalate ss ++ "]" := by
  have hitems : (ss.map .text).map (fun v => Value.display nodeName v) = ss := by
    rw [List.map_map]
    exact List.map_id' ss
  rw [display, displayItems_eq_map, hitems]

namespace Format

/-- Whether the values of a format are lists of texts. -/
def isTexts : Format τ → Bool
  | list text => true
  | list assignment => true
  | _ => false

theorem eq_list_of_isTexts {f : Format τ} (hf : f.isTexts = true) : f = list text ∨ f = list assignment := by
  unfold isTexts at hf
  split at hf
  · exact Or.inl rfl
  · exact Or.inr rfl
  · cases hf

theorem exists_texts {f : Format τ} (hf : f.isTexts = true) {v : Value τ} (hv : f.Fits v) :
    ∃ ss : List String, v = .list (ss.map .text) := by
  have hitem : ∀ {g : Format τ} {w : Value τ}, g = text ∨ g = assignment → g.Fits w → ∃ s, w = .text s := by
    rintro g w (rfl | rfl) hw <;> cases w <;> first | exact ⟨_, rfl⟩ | exact hw.elim
  obtain ⟨g, rfl, hg⟩ : ∃ g, f = list g ∧ (g = text ∨ g = assignment) := by
    rcases eq_list_of_isTexts hf with rfl | rfl
    · exact ⟨_, rfl, Or.inl rfl⟩
    · exact ⟨_, rfl, Or.inr rfl⟩
  cases v with
  | list vs =>
      induction vs with
      | nil => exact ⟨[], rfl⟩
      | cons w vs ih =>
          obtain ⟨s, rfl⟩ := hitem hg (hv w (List.mem_cons_self ..))
          obtain ⟨ss, hss⟩ := ih fun w' hw' => hv w' (List.mem_cons_of_mem _ hw')
          exact ⟨s :: ss, by rw [Value.list.inj hss]; rfl⟩
  | _ => exact hv.elim

/-- Whether display texts tell the values of a format apart. Of the lists those of symbols are among them,
if no symbol has an empty name or one with a comma in it. -/
def isLegible : Format τ → Bool
  | bool => true
  | int32 => true
  | int64 => true
  | text => true
  | span => true
  | symbol _ => true
  | assignment => true
  | list (symbol e) => e.members.all fun m => m != "" && !m.toList.contains ','
  | _ => false

variable {e : Enumeration} {v w : Value τ}

theorem eq_symbol_of_fits (hv : (symbol e).Fits v) (nodeName : Node τ → String) :
    v = .symbol ⟨e.name, v.display nodeName⟩ ∧ v.display nodeName ∈ e.members := by
  cases v with
  | symbol s =>
      obtain ⟨he, hs⟩ := hv
      exact ⟨congrArg (fun n => Value.symbol ⟨n, s.member⟩) he, hs⟩
  | _ => exact hv.elim

/-- The names in a list of symbols can be told from their joined text. -/
theorem separable_members (hf : (list (symbol e) : Format τ).isLegible = true) {ss : List String}
    (hss : ∀ s ∈ ss, s ∈ e.members) : Separable ss := by
  have hname : ∀ s ∈ ss, s ≠ "" ∧ ',' ∉ s.toList := by
    intro s hs
    have := List.all_eq_true.mp hf s (hss s hs)
    simpa using this
  constructor
  · rintro rfl
    exact (hname "" (List.mem_singleton.mpr rfl)).1 rfl
  · intro s hs hsep
    exact (hname s hs).2 (hsep.subset (List.mem_cons_self ..))

/-- A list of symbols is the list of its display texts, taken for names. -/
theorem eq_symbols_of_fits {vs : List (Value τ)} (hv : (list (symbol e)).Fits (.list vs))
    (nodeName : Node τ → String) :
    vs = (Value.displayItems nodeName vs).map (fun s => .symbol ⟨e.name, s⟩) ∧
      ∀ s ∈ Value.displayItems nodeName vs, s ∈ e.members := by
  rw [Value.displayItems_eq_map, List.map_map]
  constructor
  · have hsame : vs.map id = vs.map ((fun s => Value.symbol ⟨e.name, s⟩) ∘ fun v => v.display nodeName) :=
      List.map_congr_left fun v hvs => (eq_symbol_of_fits (hv v hvs) nodeName).1
    rwa [List.map_id] at hsame
  · intro s hs
    obtain ⟨v, hvs, rfl⟩ := List.mem_map.mp hs
    exact (eq_symbol_of_fits (hv v hvs) nodeName).2

theorem display_symbols_injective (hf : (list (symbol e) : Format τ).isLegible = true)
    (hv : (list (symbol e)).Fits v) (hw : (list (symbol e)).Fits w) {m n : Node τ → String}
    (h : v.display m = w.display n) : v = w := by
  cases v with
  | list vs =>
      cases w with
      | list ws =>
          obtain ⟨hvs, hv⟩ := eq_symbols_of_fits hv m
          obtain ⟨hws, hw⟩ := eq_symbols_of_fits hw n
          rw [Value.display, Value.display, String.append_left_inj, String.append_right_inj] at h
          have hnames := (separable_members hf hv).eq_of_joined (separable_members hf hw) h
          rw [hvs, hws, hnames]
      | _ => exact hw.elim
  | _ => exact hv.elim

/-- **A legible text tells the value, whatever the names of nodes.** -/
theorem display_injective {f : Format τ} (hf : f.isLegible = true) (hv : f.Fits v) (hw : f.Fits w)
    {m n : Node τ → String} (h : v.display m = w.display n) : v = w := by
  cases f with
  | bool =>
      cases v with
      | bool a =>
          cases w with
          | bool b =>
              cases a <;> cases b <;> first | rfl | exact absurd h (by simp [Value.display])
          | _ => exact hw.elim
      | _ => exact hv.elim
  | int32 =>
      cases v with
      | int a =>
          cases w with
          | int b => exact congrArg Value.int (eq_of_intRepr_eq h)
          | _ => exact hw.elim
      | _ => exact hv.elim
  | int64 =>
      cases v with
      | int a =>
          cases w with
          | int b => exact congrArg Value.int (eq_of_intRepr_eq h)
          | _ => exact hw.elim
      | _ => exact hv.elim
  | text =>
      cases v with
      | text a =>
          cases w with
          | text b => exact congrArg Value.text h
          | _ => exact hw.elim
      | _ => exact hv.elim
  | assignment =>
      cases v with
      | text a =>
          cases w with
          | text b => exact congrArg Value.text h
          | _ => exact hw.elim
      | _ => exact hv.elim
  | span =>
      cases v with
      | span a =>
          cases w with
          | span b => exact congrArg Value.span (TimeSpan.text_injective h)
          | _ => exact hw.elim
      | _ => exact hv.elim
  | symbol e => rw [(eq_symbol_of_fits hv m).1, (eq_symbol_of_fits hw n).1, h]
  | list g =>
      cases g with
      | symbol e => exact display_symbols_injective hf hv hw h
      | _ => cases hf
  | _ => cases hf

end Format

end LayeredConfig
