import LayeredConfig.Proofs.DigitOrder
import Mathlib.Algebra.Group.Nat.Defs
import Mathlib.Data.List.SplitBy

/-!
# Digit runs by value

The tokens of digit-run order are taken off the front of a text one after the other, zeros before the digits
after them, and runs are compared by length before they are compared digit by digit. None of this shows in the
answer. A text is cut here into *segments* by the library's `List.splitBy`, a segment that is a run of digits
is read as a number of leading zeros and a natural number of any size, and the answer for two texts is decided
by the first segments in which they differ (`Decided`, `comparedBySegments`).
-/

namespace LayeredConfig.DigitOrder

/-- The segments of a text: its maximal runs of digits, and every other character by itself. -/
def segments (s : List Char) : List (List Char) :=
  s.splitBy fun c d => c.isDigit && d.isDigit

/-- A segment of digits. -/
def IsRun (a : List Char) : Prop := ∀ c ∈ a, c.isDigit = true

instance (a : List Char) : Decidable (IsRun a) := inferInstanceAs (Decidable (∀ c ∈ a, _))

/-- The number of leading zeros of a run. -/
def leadingZeros (a : List Char) : Nat := (a.takeWhile (· == '0')).length

/-- The number that a run writes in decimal notation. -/
def value (a : List Char) : Nat := Nat.ofDigitChars 10 a 0

/-- What decides between two texts, given as segments: a text is less than its extensions, and otherwise the
first segments that differ count, two runs by their values, or in their leading zeros alone, and any other two
by their first characters. -/
inductive Decided : List (List Char) → List (List Char) → Ordering → Prop where
  | same (s : List (List Char)) : Decided s s .eq
  | shorter (s : List (List Char)) (a : List Char) (t : List (List Char)) : Decided s (s ++ a :: t) .lt
  | longer (s : List (List Char)) (a : List Char) (t : List (List Char)) : Decided (s ++ a :: t) s .gt
  | byValue (before : List (List Char)) {a b : List Char} (s t : List (List Char)) :
      IsRun a → IsRun b → value a ≠ value b →
      Decided (before ++ a :: s) (before ++ b :: t) (compare (value a) (value b))
  | byZeros (before : List (List Char)) {a b : List Char} (s t : List (List Char)) :
      IsRun a → IsRun b → value a = value b → leadingZeros a ≠ leadingZeros b →
      Decided (before ++ a :: s) (before ++ b :: t) .eq
  | byFirst (before : List (List Char)) {c d : Char} {u v : List Char} (s t : List (List Char)) :
      c :: u ≠ d :: v → ¬ (IsRun (c :: u) ∧ IsRun (d :: v)) →
      Decided (before ++ (c :: u) :: s) (before ++ (d :: v) :: t) (compare c d)

/-! ## Segments are tokens -/

/-- What a segment is: digits, at least one, or a single character that is no digit. -/
inductive Segment : List Char → Prop where
  | run {c : Char} {u : List Char} : IsRun (c :: u) → Segment (c :: u)
  | other {c : Char} : c.isDigit = false → Segment [c]

/-- A segment as a token of the order. -/
def Token.ofSegment : List Char → Token
  | [] => .run 0 []
  | c :: u =>
    if c.isDigit then .run (leadingZeros (c :: u)) ((c :: u).dropWhile (· == '0')) else .char c

theorem Token.ofSegment_run {c : Char} {u : List Char} (h : IsRun (c :: u)) :
    ofSegment (c :: u) = .run (leadingZeros (c :: u)) ((c :: u).dropWhile (· == '0')) :=
  if_pos (h c List.mem_cons_self)

theorem Token.ofSegment_other {c : Char} (h : c.isDigit = false) : ofSegment [c] = .char c :=
  if_neg (Bool.eq_false_iff.mp h)

theorem segments_append {r t : List Char} (hr : IsRun r) (hne : r ≠ [])
    (ht : ∀ c ∈ t.head?, c.isDigit = false) : segments (r ++ t) = r :: segments t := by
  have hchain : r.IsChain fun c d => (c.isDigit && d.isDigit) = true :=
    (List.pairwise_of_forall_mem_list fun a ha b hb => by simp [hr a ha, hr b hb]).isChain
  rw [segments, List.splitBy_append, List.splitBy_of_isChain hne hchain]
  · rfl
  · intro c _ d hd
    simp [ht d hd]

theorem segments_other {c : Char} (h : c.isDigit = false) (s : List Char) :
    segments (c :: s) = [c] :: segments s := by
  rw [segments, ← List.singleton_append, List.splitBy_append]
  · rfl
  · intro d hd e _
    obtain rfl : c = d := by simpa using hd
    simp [h]

example : segments ['v', '0', '0', '7', 'b', 'c'] = [['v'], ['0', '0', '7'], ['b'], ['c']] := by decide

/-- To take the run off a text is to take its digits, and to part the zeros at their front from the others. -/
theorem Run.take_append {r t : List Char} (hr : IsRun r) (ht : ∀ c ∈ t.head?, c.isDigit = false) :
    Run.take (r ++ t) = ⟨leadingZeros r, r.dropWhile (· == '0'), t⟩ := by
  induction r with
  | nil =>
      obtain - | ⟨c, t⟩ := t
      · rfl
      · have hc : c.isDigit = false := ht c rfl
        have h0 : (c == '0') = false := by
          rw [beq_eq_false_iff_ne]
          rintro rfl
          cases hc
        simp [Run.take, leadingZeros, hc, h0]
  | cons c r ih =>
      obtain ⟨hc, hr⟩ := List.forall_mem_cons.mp hr
      have ih := ih hr
      by_cases h0 : (c == '0') = true
      · simp_all [Run.take, leadingZeros]
      · have hall : ∀ d ∈ c :: r, d.isDigit = true := List.forall_mem_cons.mpr ⟨hc, hr⟩
        obtain ⟨htake, hdrop⟩ : t.takeWhile Char.isDigit = [] ∧ t.dropWhile Char.isDigit = t := by
          obtain - | ⟨d, t⟩ := t
          · exact ⟨rfl, rfl⟩
          · simp [ht d rfl]
        simp only [Run.take, leadingZeros, List.cons_append, List.dropWhile_cons, List.takeWhile_cons, h0]
        simp [hc, List.takeWhile_append_of_pos hr, List.dropWhile_append_of_pos hr, htake, hdrop]

theorem exists_run {c : Char} (h : c.isDigit = true) (s : List Char) :
    ∃ u t, s = u ++ t ∧ IsRun (c :: u) ∧ ∀ d ∈ t.head?, d.isDigit = false := by
  refine ⟨s.takeWhile Char.isDigit, s.dropWhile Char.isDigit, List.takeWhile_append_dropWhile.symm,
    List.forall_mem_cons.mpr ⟨h, List.all_eq_true.mp List.all_takeWhile⟩, fun d hd => ?_⟩
  have := List.head?_dropWhile_not Char.isDigit s
  rwa [Option.mem_def.mp hd] at this

/-- The tokens of a text are its segments. -/
theorem tokens_eq (s : List Char) :
    tokens s = (segments s).map Token.ofSegment ∧ ∀ a ∈ segments s, Segment a := by
  fun_induction tokens s with
  | case1 => exact ⟨rfl, fun _ ha => nomatch ha⟩
  | case2 c s h ih =>
      obtain ⟨u, t, rfl, hrun, ht⟩ := exists_run h s
      rw [← List.cons_append, Run.take_append hrun ht] at ih
      rw [← List.cons_append, Run.take_append hrun ht, segments_append hrun (List.cons_ne_nil _ _) ht, ih.1,
        List.map_cons, Token.ofSegment_run hrun]
      exact ⟨rfl, List.forall_mem_cons.mpr ⟨.run hrun, ih.2⟩⟩
  | case3 c s h ih =>
      have hc : c.isDigit = false := Bool.eq_false_iff.mpr h
      rw [segments_other hc, ih.1, List.map_cons, Token.ofSegment_other hc]
      exact ⟨rfl, List.forall_mem_cons.mpr ⟨.other hc, ih.2⟩⟩

/-! ## The value of a run -/

theorem compare_char (c d : Char) : compare c d = compare c.toNat d.toNat := by
  have hlt : c < d ↔ c.toNat < d.toNat := by
    rw [Char.lt_def, UInt32.lt_iff_toNat_lt]
    rfl
  simp only [compare, compareOfLessAndEq, hlt, Char.toNat_inj]

theorem compare_mul_add {m n p u v : Nat} (hu : u < p) (hv : v < p) :
    compare (m * p + u) (n * p + v) = (compare m n).then (compare u v) := by
  rcases Nat.lt_trichotomy m n with h | rfl | h
  · have := Nat.mul_le_mul_right p (Nat.succ_le_of_lt h)
    rw [Nat.succ_mul] at this
    rw [Nat.compare_eq_lt.mpr h, Nat.compare_eq_lt.mpr (by omega)]
    rfl
  · rw [Nat.compare_eq_eq.mpr rfl, Nat.compare_eq_ite_lt, Nat.compare_eq_ite_lt]
    simp
  · have := Nat.mul_le_mul_right p (Nat.succ_le_of_lt h)
    rw [Nat.succ_mul] at this
    rw [Nat.compare_eq_gt.mpr h, Nat.compare_eq_gt.mpr (by omega)]
    rfl

theorem ofDigitChars_eq (u : List Char) (n : Nat) :
    Nat.ofDigitChars 10 u n = n * 10 ^ u.length + value u := by
  induction u generalizing n with
  | nil => simp [value]
  | cons c u ih =>
      rw [value, Nat.ofDigitChars_cons, Nat.ofDigitChars_cons, ih, ih (10 * 0 + _), List.length_cons,
        Nat.pow_succ]
      grind

theorem value_cons (c : Char) (u : List Char) :
    value (c :: u) = (c.toNat - 48) * 10 ^ u.length + value u := by
  rw [value, Nat.ofDigitChars_cons, ofDigitChars_eq, Nat.mul_zero, Nat.zero_add]
  rfl

theorem isDigit_iff (c : Char) : c.isDigit = true ↔ 48 ≤ c.toNat ∧ c.toNat ≤ 57 := by
  simp only [Char.isDigit, Bool.and_eq_true, decide_eq_true_eq, ge_iff_le, UInt32.le_iff_toNat_le]
  rfl

theorem value_lt {u : List Char} (h : IsRun u) : value u < 10 ^ u.length := by
  induction u with
  | nil => exact Nat.one_pos
  | cons c u ih =>
      obtain ⟨hc, hu⟩ := List.forall_mem_cons.mp h
      have hle : (c.toNat - 48) * 10 ^ u.length ≤ 9 * 10 ^ u.length :=
        Nat.mul_le_mul_right _ (by have := (isDigit_iff c).mp hc; omega)
      have := ih hu
      rw [value_cons, List.length_cons, Nat.pow_succ]
      omega

/-- Runs of one length compare as their values do. -/
theorem compare_of_length_eq {u v : List Char} (hu : IsRun u) (hv : IsRun v) (h : u.length = v.length) :
    compare u v = compare (value u) (value v) := by
  induction u generalizing v with
  | nil =>
      obtain rfl := List.length_eq_zero_iff.mp h.symm
      rfl
  | cons c u ih =>
      obtain - | ⟨d, v⟩ := v
      · cases h
      · obtain ⟨hc, hu⟩ := List.forall_mem_cons.mp hu
        obtain ⟨hd, hv⟩ := List.forall_mem_cons.mp hv
        have hlen : u.length = v.length := Nat.succ.inj h
        have hdigit : compare c d = compare (c.toNat - 48) (d.toNat - 48) := by
          rw [compare_char, Nat.compare_eq_ite_lt, Nat.compare_eq_ite_lt]
          have := (isDigit_iff c).mp hc
          have := (isDigit_iff d).mp hd
          grind
        rw [List.compare_cons_cons, ih hu hv hlen, hdigit, value_cons, value_cons, ← hlen,
          compare_mul_add (value_lt hu) (hlen ▸ value_lt hv)]

/-- Of two runs without leading zeros the longer has the larger value. -/
theorem value_lt_of_length_lt {u v : List Char} (hu : IsRun u) (hv : IsRun v)
    (h0 : ∀ d ∈ v.head?, (d == '0') = false) (h : u.length < v.length) : value u < value v := by
  obtain - | ⟨d, v⟩ := v
  · cases h
  · have hne : d.toNat ≠ 48 := fun he => by
      have := h0 d rfl
      rw [beq_eq_false_iff_ne] at this
      exact this (Char.toNat_inj.mp he)
    have hd := (isDigit_iff d).mp (hv d List.mem_cons_self)
    calc value u < 10 ^ u.length := value_lt hu
      _ ≤ 10 ^ v.length := Nat.pow_le_pow_right (by decide) (Nat.le_of_lt_succ h)
      _ ≤ (d.toNat - 48) * 10 ^ v.length := Nat.le_mul_of_pos_left _ (by omega)
      _ ≤ value (d :: v) := by
          rw [value_cons]
          exact Nat.le_add_right _ _

/-- Runs without leading zeros compare by length and then digit by digit as their values do. -/
theorem compare_length_then {u v : List Char} (hu : IsRun u) (hv : IsRun v)
    (hu0 : ∀ d ∈ u.head?, (d == '0') = false) (hv0 : ∀ d ∈ v.head?, (d == '0') = false) :
    (compare u.length v.length).then (compare u v) = compare (value u) (value v) := by
  rcases Nat.lt_trichotomy u.length v.length with h | h | h
  · rw [Nat.compare_eq_lt.mpr h, Nat.compare_eq_lt.mpr (value_lt_of_length_lt hu hv hv0 h)]
    rfl
  · rw [Nat.compare_eq_eq.mpr h, compare_of_length_eq hu hv h]
    rfl
  · rw [Nat.compare_eq_gt.mpr h, Nat.compare_eq_gt.mpr (value_lt_of_length_lt hv hu hu0 h)]
    rfl

theorem value_dropWhile (u : List Char) : value (u.dropWhile (· == '0')) = value u := by
  induction u with
  | nil => rfl
  | cons c u ih =>
      by_cases h : (c == '0') = true
      · obtain rfl := eq_of_beq h
        rw [List.dropWhile_cons, if_pos h, ih, value_cons]
        exact (Nat.zero_add _).symm.trans (by rw [show '0'.toNat - 48 = 0 from rfl, Nat.zero_mul])
      · rw [List.dropWhile_cons, if_neg h]

/-- Two runs are compared by their values. -/
theorem compareValue_runs {a b : List Char} (ha : IsRun a) (hb : IsRun b) (m n : Nat) :
    (Token.run m (a.dropWhile (· == '0'))).compareValue (.run n (b.dropWhile (· == '0'))) =
      compare (value a) (value b) := by
  have hrun : ∀ {u}, IsRun u → IsRun (u.dropWhile (· == '0')) := fun h c hc =>
    h c ((List.dropWhile_sublist _).mem hc)
  have hhead : ∀ u : List Char, ∀ d ∈ (u.dropWhile (· == '0')).head?, (d == '0') = false := fun u d hd => by
    have := List.head?_dropWhile_not (· == '0') u
    rwa [Option.mem_def.mp hd] at this
  have hvalue := compareValue_ofRun ⟨m, a.dropWhile (· == '0'), []⟩ ⟨n, b.dropWhile (· == '0'), []⟩
  rw [Run.compareValue, compare_length_then (hrun ha) (hrun hb) (hhead a) (hhead b), value_dropWhile,
    value_dropWhile] at hvalue
  exact hvalue

theorem leadingZeros_append_dropWhile (a : List Char) :
    List.replicate (leadingZeros a) '0' ++ a.dropWhile (· == '0') = a := by
  have hzeros : a.takeWhile (· == '0') = List.replicate (leadingZeros a) '0' :=
    List.eq_replicate_iff.mpr ⟨rfl, fun c hc => eq_of_beq (List.all_eq_true.mp List.all_takeWhile c hc)⟩
  rw [← hzeros, List.takeWhile_append_dropWhile]

/-- A run is known by its leading zeros and its value. -/
theorem run_eq_iff {a b : List Char} (ha : IsRun a) (hb : IsRun b) :
    a = b ↔ leadingZeros a = leadingZeros b ∧ value a = value b := by
  refine ⟨fun h => h ▸ ⟨rfl, rfl⟩, fun ⟨hz, hv⟩ => ?_⟩
  have hdigits : a.dropWhile (· == '0') = b.dropWhile (· == '0') := by
    have h := compareValue_runs ha hb 0 0
    rw [Nat.compare_eq_eq.mpr hv] at h
    simp only [Token.compareValue, compareLex, compareOn, Token.first, Token.digits,
      Ordering.then_eq_eq] at h
    exact Std.LawfulEqCmp.eq_of_compare h.2.2
  rw [← leadingZeros_append_dropWhile a, ← leadingZeros_append_dropWhile b, hz, hdigits]

/-! ## What decides between two texts -/

theorem Segment.ofSegment_run {a : List Char} (h : Segment a) (ha : IsRun a) :
    Token.ofSegment a = .run (leadingZeros a) (a.dropWhile (· == '0')) := by
  cases h with
  | run h => exact Token.ofSegment_run h
  | other h => exact absurd (ha _ List.mem_cons_self) (Bool.eq_false_iff.mp h)

/-- Two segments that are not both runs, and differ, compare as their first characters do. -/
theorem Segment.compareValue_first {c d : Char} {u v : List Char} (hs : Segment (c :: u))
    (ht : Segment (d :: v)) (hne : c :: u ≠ d :: v) (h : ¬ (IsRun (c :: u) ∧ IsRun (d :: v))) :
    (Token.ofSegment (c :: u)).compareValue (.ofSegment (d :: v)) = compare c d ∧ compare c d ≠ .eq := by
  cases hs with
  | run hu =>
      have hc := hu c List.mem_cons_self
      cases ht with
      | run hv => exact absurd ⟨hu, hv⟩ h
      | other hd =>
          rw [Token.ofSegment_run hu, Token.ofSegment_other hd]
          exact compareValue_run_char hc hd ⟨leadingZeros (c :: u), (c :: u).dropWhile (· == '0'), []⟩
  | other hc =>
      cases ht with
      | run hv =>
          rw [Token.ofSegment_other hc, Token.ofSegment_run hv]
          exact compareValue_char_run hc (hv d List.mem_cons_self)
            ⟨leadingZeros (d :: v), (d :: v).dropWhile (· == '0'), []⟩
      | other hd =>
          rw [Token.ofSegment_other hc, Token.ofSegment_other hd, compareValue_char]
          exact ⟨rfl, fun he => hne (by rw [Std.LawfulEqCmp.eq_of_compare he])⟩

theorem compareTokens_append (p s t : List Token) :
    compareTokens (p ++ s) (p ++ t) = compareTokens s t := by
  induction p with
  | nil => rfl
  | cons a p ih =>
      rw [List.cons_append, List.cons_append, compareTokens_cons, if_pos Std.ReflCmp.compare_self, if_pos rfl,
        ih]

theorem Decided.compareTokens_eq {s t : List (List Char)} {o : Ordering} (h : Decided s t o)
    (hs : ∀ a ∈ s, Segment a) (ht : ∀ a ∈ t, Segment a) :
    compareTokens (s.map .ofSegment) (t.map .ofSegment) = o := by
  cases h with
  | same => exact compareTokens_self _
  | shorter _ b t =>
      have := compareTokens_append (s.map .ofSegment) [] ((b :: t).map .ofSegment)
      rwa [List.append_nil, ← List.map_append] at this
  | longer _ a s =>
      have := compareTokens_append (t.map .ofSegment) ((a :: s).map .ofSegment) []
      rwa [List.append_nil, ← List.map_append] at this
  | byValue before s t ha hb hv =>
      have hsa := hs _ (List.mem_append_right _ List.mem_cons_self)
      have htb := ht _ (List.mem_append_right _ List.mem_cons_self)
      rw [List.map_append, List.map_append, compareTokens_append, List.map_cons, List.map_cons,
        compareTokens_cons, hsa.ofSegment_run ha, htb.ofSegment_run hb, compareValue_runs ha hb,
        if_neg (mt Nat.compare_eq_eq.mp hv)]
  | byZeros before s t ha hb hv hz =>
      have hsa := hs _ (List.mem_append_right _ List.mem_cons_self)
      have htb := ht _ (List.mem_append_right _ List.mem_cons_self)
      rw [List.map_append, List.map_append, compareTokens_append, List.map_cons, List.map_cons,
        compareTokens_cons, hsa.ofSegment_run ha, htb.ofSegment_run hb, compareValue_runs ha hb,
        if_pos (Nat.compare_eq_eq.mpr hv)]
      exact if_neg hz
  | byFirst before s t hne h =>
      have hsa := hs _ (List.mem_append_right _ List.mem_cons_self)
      have htb := ht _ (List.mem_append_right _ List.mem_cons_self)
      obtain ⟨hfirst, hcd⟩ := hsa.compareValue_first htb hne h
      rw [List.map_append, List.map_append, compareTokens_append, List.map_cons, List.map_cons,
        compareTokens_cons, hfirst, if_neg hcd]

theorem Decided.cons {s t : List (List Char)} {o : Ordering} (h : Decided s t o) (a : List Char) :
    Decided (a :: s) (a :: t) o := by
  cases h with
  | same => exact .same _
  | shorter => exact .shorter (a :: s) _ _
  | longer => exact .longer (a :: t) _ _
  | byValue before s t ha hb hv => exact .byValue (a :: before) s t ha hb hv
  | byZeros before s t ha hb hv hz => exact .byZeros (a :: before) s t ha hb hv hz
  | byFirst before s t hne h => exact .byFirst (a :: before) s t hne h

theorem exists_decided {s t : List (List Char)} (hs : ∀ a ∈ s, Segment a) (ht : ∀ a ∈ t, Segment a) :
    ∃ o, Decided s t o := by
  induction s generalizing t with
  | nil =>
      obtain - | ⟨b, t⟩ := t
      · exact ⟨_, .same []⟩
      · exact ⟨_, .shorter [] b t⟩
  | cons a s ih =>
      obtain - | ⟨b, t⟩ := t
      · exact ⟨_, .longer [] a s⟩
      · obtain ⟨ha, hs⟩ := List.forall_mem_cons.mp hs
        obtain ⟨hb, ht⟩ := List.forall_mem_cons.mp ht
        by_cases hab : a = b
        · obtain ⟨o, h⟩ := ih hs ht
          rw [hab]
          exact ⟨o, h.cons b⟩
        · by_cases hruns : IsRun a ∧ IsRun b
          · by_cases hv : value a = value b
            · exact ⟨_, .byZeros [] s t hruns.1 hruns.2 hv
                fun hz => hab ((run_eq_iff hruns.1 hruns.2).mpr ⟨hz, hv⟩)⟩
            · exact ⟨_, .byValue [] s t hruns.1 hruns.2 hv⟩
          · cases ha <;> cases hb <;> exact ⟨_, .byFirst [] s t hab hruns⟩

theorem compareTexts_eq_iff (x y : String) (o : Ordering) :
    compareTexts x y = o ↔ Decided (segments x.toList) (segments y.toList) o := by
  obtain ⟨hx, hxs⟩ := tokens_eq x.toList
  obtain ⟨hy, hys⟩ := tokens_eq y.toList
  rw [compareTexts, compareChars_eq, hx, hy]
  refine ⟨fun h => ?_, fun h => h.compareTokens_eq hxs hys⟩
  obtain ⟨o', h'⟩ := exists_decided hxs hys
  rwa [← h, h'.compareTokens_eq hxs hys]

/-- Without digits the order is that of the characters. -/
theorem compareChars_of_other {s t : List Char} (hs : ∀ c ∈ s, c.isDigit = false) :
    compareChars s t = compareOfLessAndEq s t := by
  induction s generalizing t with
  | nil => cases t <;> simp [compareChars, compareOfLessAndEq]
  | cons c s ih =>
      obtain - | ⟨d, t⟩ := t
      · simp [compareChars, compareOfLessAndEq]
      · obtain ⟨hc, hs⟩ := List.forall_mem_cons.mp hs
        rw [compareChars, dif_neg (by simp [hc]), ih hs]
        simp only [compare, compareOfLessAndEq, List.cons_lt_cons_iff, List.cons.injEq]
        grind

theorem compareTexts_of_other {x : String} (hx : ∀ c ∈ x.toList, c.isDigit = false) (y : String) :
    compareTexts x y = compare x y := by
  have hlt : x.toList < y.toList ↔ x < y := Iff.rfl
  rw [compareTexts, compareChars_of_other hx]
  simp only [compare, String.compare, compareOfLessAndEq, hlt, String.toList_inj]

/-- What digit-run order says about two texts, read off their segments. -/
structure ComparedBySegments (x y : String) : Prop where
  decided : ∀ o, compareTexts x y = o ↔ Decided (segments x.toList) (segments y.toList) o
  /-- Segments differ where the numbers that they are read as do. -/
  distinct : ∀ a ∈ segments x.toList, ∀ b ∈ segments y.toList, IsRun a → IsRun b →
    (a = b ↔ leadingZeros a = leadingZeros b ∧ value a = value b)
  swap : compareTexts y x = (compareTexts x y).swap
  /-- A text without digits stands to every other text as in the order by code points. -/
  plain : (∀ c ∈ x.toList, c.isDigit = false) ∨ (∀ c ∈ y.toList, c.isDigit = false) →
    compareTexts x y = compare x y

/-- **Digit-run order is decided by the first segments that differ.** -/
theorem comparedBySegments (x y : String) : ComparedBySegments x y where
  decided := compareTexts_eq_iff x y
  distinct := fun _ _ _ _ ha hb => run_eq_iff ha hb
  swap := compareTexts_swap x y
  plain := by
    rintro (hx | hy)
    · exact compareTexts_of_other hx y
    · rw [compareTexts_swap, compareTexts_of_other hy]
      exact Std.OrientedCmp.eq_swap.symm

end LayeredConfig.DigitOrder
