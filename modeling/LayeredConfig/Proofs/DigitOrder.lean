import LayeredConfig.Text.DigitOrder

/-!
# The laws of digit-run order

Digit-run order compares two texts token by token (`compareChars_eq`): a token is a maximal run of digits, or
a character that is no digit. Two runs of one value that differ in their leading zeros end the comparison, and
what follows them does not count; two texts that meet such a pair first are *tied*.

* The order is reflexive, and to swap the texts reverses the answer.
* It is transitive as far as ties are (`compareTexts_trans`); in particular where the text in the middle is not
  tied to both others.
* Ties do not compose: two texts that are tied to a third may stand in either order to each other.
-/

namespace LayeredConfig.DigitOrder

open Std

/-- A maximal run of digits, as leading zeros and the digits after them, or a character that is no digit. -/
inductive Token where
  | char (c : Char)
  | run (zeros : Nat) (digits : List Char)
deriving DecidableEq, Repr

namespace Token

/-- The character that a token stands for against a token of the other sort. All digits are on the same side
of a character that is no digit, so that zero stands for every run. -/
def first : Token → Char
  | char c => c
  | run _ _ => '0'

def zeros : Token → Nat
  | char _ => 0
  | run z _ => z

def digits : Token → List Char
  | char _ => []
  | run _ ds => ds

def ofRun (r : Run) : Token := run r.zeros r.digits

/-- Compares two tokens, runs by their value. -/
def compareValue : Token → Token → Ordering :=
  compareLex (compareOn first) (compareLex (compareOn fun t => t.digits.length) (compareOn digits))

instance : TransCmp compareValue :=
  inferInstanceAs (TransCmp (compareLex _ (compareLex _ _)))

theorem compareValue_swap (a b : Token) : a.compareValue b = (b.compareValue a).swap := OrientedCmp.eq_swap

end Token

/-- The tokens of a text. -/
def tokens (s : List Char) : List Token :=
  match s with
  | [] => []
  | c :: s =>
    if _h : c.isDigit = true then
      .ofRun (Run.take (c :: s)) :: tokens (Run.take (c :: s)).rest
    else .char c :: tokens s
termination_by s.length
decreasing_by
  · exact Run.length_rest_take_lt _h s
  · simp

/-- Compares two texts by their tokens. -/
def compareTokens : List Token → List Token → Ordering
  | [], [] => .eq
  | [], _ :: _ => .lt
  | _ :: _, [] => .gt
  | a :: s, b :: t =>
    match a.compareValue b with
    | .eq => if a.zeros = b.zeros then compareTokens s t else .eq
    | o => o

/-! ## Texts as tokens -/

theorem tokens_digit {c : Char} (h : c.isDigit = true) (s : List Char) :
    tokens (c :: s) = .ofRun (Run.take (c :: s)) :: tokens (Run.take (c :: s)).rest := by
  rw [tokens, dif_pos h]

theorem tokens_other {c : Char} (h : c.isDigit = false) (s : List Char) :
    tokens (c :: s) = .char c :: tokens s := by
  rw [tokens, dif_neg (Bool.eq_false_iff.mp h)]

/-- A character that is no digit stands on the same side of all digits. -/
theorem compare_digit {c d : Char} (hc : c.isDigit = false) (hd : d.isDigit = true) :
    compare c d = compare c '0' ∧ compare c d ≠ .eq := by
  have hrange : ∀ x : Char, x.isDigit = true ↔ 48 ≤ x.toNat ∧ x.toNat ≤ 57 := by
    intro x
    simp only [Char.isDigit, Bool.and_eq_true, decide_eq_true_eq, ge_iff_le, UInt32.le_iff_toNat_le]
    rfl
  have hlt : ∀ x y : Char, x < y ↔ x.toNat < y.toNat := fun x y => by
    rw [Char.lt_def, UInt32.lt_iff_toNat_lt]
    rfl
  rw [← Bool.not_eq_true, hrange] at hc
  rw [hrange] at hd
  have hzero : '0'.toNat = 48 := rfl
  have hne : ∀ y : Char, 48 ≤ y.toNat → y.toNat ≤ 57 → c ≠ y := by
    rintro y h1 h2 rfl
    exact hc ⟨h1, h2⟩
  have hcd := hne d hd.1 hd.2
  have hc0 := hne '0' (by omega) (by omega)
  simp only [compare, compareOfLessAndEq, hlt, hcd, hc0, if_false, hzero]
  by_cases h : c.toNat < 48
  · simp [h, show c.toNat < d.toNat by omega]
  · simp [h, show ¬ c.toNat < d.toNat by omega]

theorem compareValue_ofRun (x y : Run) :
    (Token.ofRun x).compareValue (.ofRun y) = x.compareValue y := by
  simp [Token.compareValue, compareLex, compareOn, Token.first, Token.digits, Token.ofRun, Run.compareValue]

theorem compareValue_char (c d : Char) : (Token.char c).compareValue (.char d) = compare c d := by
  simp [Token.compareValue, compareLex, compareOn, Token.first, Token.digits]

theorem compareValue_char_run {c d : Char} (hc : c.isDigit = false) (hd : d.isDigit = true) (x : Run) :
    (Token.char c).compareValue (.ofRun x) = compare c d ∧ compare c d ≠ .eq := by
  obtain ⟨hzero, hne⟩ := compare_digit hc hd
  refine ⟨?_, hne⟩
  rw [hzero] at hne ⊢
  simp only [Token.compareValue, compareLex, compareOn, Token.first, Token.ofRun]
  cases h : compare c '0' <;> simp_all

theorem compareValue_run_char {c d : Char} (hc : c.isDigit = true) (hd : d.isDigit = false) (x : Run) :
    (Token.ofRun x).compareValue (.char d) = compare c d ∧ compare c d ≠ .eq := by
  obtain ⟨h, hne⟩ := compareValue_char_run hd hc x
  have hswap : ∀ a b : Char, compare a b = (compare b a).swap := fun a b => OrientedCmp.eq_swap
  rw [Token.compareValue_swap, h, ← hswap]
  refine ⟨rfl, fun he => hne ?_⟩
  rw [hswap, he]
  rfl

theorem compareTokens_cons (a b : Token) (s t : List Token) : compareTokens (a :: s) (b :: t) =
    if a.compareValue b = .eq then if a.zeros = b.zeros then compareTokens s t else .eq
    else a.compareValue b := by
  rw [compareTokens]
  cases a.compareValue b <;> rfl

theorem compareTokens_digits {c d : Char} (hc : c.isDigit = true) (hd : d.isDigit = true) (s t : List Char) :
    compareTokens (tokens (c :: s)) (tokens (d :: t)) =
      let x := Run.take (c :: s)
      let y := Run.take (d :: t)
      if x.compareValue y = .eq then
        if x.zeros = y.zeros then compareTokens (tokens x.rest) (tokens y.rest) else .eq
      else x.compareValue y := by
  rw [tokens_digit hc, tokens_digit hd, compareTokens_cons, compareValue_ofRun]
  rfl

/-- **Digit-run order compares two texts token by token.** -/
theorem compareChars_eq (s t : List Char) : compareChars s t = compareTokens (tokens s) (tokens t) := by
  fun_induction compareChars s t with
  | case1 => simp [tokens, compareTokens]
  | case2 d t =>
      cases h : d.isDigit with
      | true => rw [tokens_digit h, tokens, compareTokens]
      | false => rw [tokens_other h, tokens, compareTokens]
  | case3 c s =>
      cases h : c.isDigit with
      | true => rw [tokens_digit h, tokens, compareTokens]
      | false => rw [tokens_other h, tokens, compareTokens]
  | case4 c s d t h x y hv hz ih =>
      rw [compareTokens_digits h.1 h.2]
      exact ih.trans ((if_pos hv).trans (if_pos hz)).symm
  | case5 c s d t h x y hv hz =>
      rw [compareTokens_digits h.1 h.2]
      exact ((if_pos hv).trans (if_neg hz)).symm
  | case6 c s d t h x y hv =>
      rw [compareTokens_digits h.1 h.2]
      exact (if_neg hv).symm
  | case7 c s d t h hv ih =>
      -- Equal characters, not both digits: neither of them is one.
      have hd : d.isDigit = false := by
        obtain rfl := LawfulEqCmp.eq_of_compare hv
        simpa using h
      have hc : c.isDigit = false := by
        obtain rfl := LawfulEqCmp.eq_of_compare hv
        exact hd
      rw [tokens_other hc, tokens_other hd, compareTokens_cons, compareValue_char, if_pos hv, ih]
      exact (if_pos rfl).symm
  | case8 c s d t h hv =>
      cases hc : c.isDigit with
      | false =>
          cases hd : d.isDigit with
          | false => rw [tokens_other hc, tokens_other hd, compareTokens_cons, compareValue_char, if_neg hv]
          | true =>
              rw [tokens_other hc, tokens_digit hd, compareTokens_cons, (compareValue_char_run hc hd _).1,
                if_neg hv]
      | true =>
          have hd : d.isDigit = false := by simpa [hc] using h
          rw [tokens_digit hc, tokens_other hd, compareTokens_cons, (compareValue_run_char hc hd _).1,
            if_neg hv]

/-! ## Texts that are tied -/

/-- Whether the first difference between two texts is one of leading zeros. -/
def tiedTokens : List Token → List Token → Bool
  | a :: s, b :: t => a.compareValue b == .eq && (a.zeros != b.zeros || tiedTokens s t)
  | _, _ => false

/-- Two texts whose first difference is between two runs of one value, in their leading zeros. -/
def Tied (x y : String) : Prop := tiedTokens (tokens x.toList) (tokens y.toList) = true

instance (x y : String) : Decidable (Tied x y) := inferInstanceAs (Decidable (_ = true))

theorem tiedTokens_comm (s t : List Token) : tiedTokens s t = tiedTokens t s := by
  induction s generalizing t with
  | nil => cases t <;> rfl
  | cons a s ih =>
      cases t with
      | nil => rfl
      | cons b t =>
          have hv : (a.compareValue b == .eq) = (b.compareValue a == .eq) := by
            rw [Token.compareValue_swap]
            cases b.compareValue a <;> rfl
          rw [tiedTokens, tiedTokens, hv, bne_comm, ih]

/-! ## The laws -/

theorem compareTokens_self (s : List Token) : compareTokens s s = .eq := by
  induction s with
  | nil => rfl
  | cons a s ih => rw [compareTokens_cons, if_pos ReflCmp.compare_self, if_pos rfl, ih]

theorem compareTokens_swap (s t : List Token) : compareTokens t s = (compareTokens s t).swap := by
  induction s generalizing t with
  | nil => cases t <;> rfl
  | cons a s ih =>
      cases t with
      | nil => rfl
      | cons b t =>
          rw [compareTokens_cons, compareTokens_cons, ih, Token.compareValue_swap]
          by_cases hz : a.zeros = b.zeros
          · cases a.compareValue b <;> simp [hz]
          · cases a.compareValue b <;> simp [hz, Ne.symm hz]

theorem compareTokens_of_tied {s t : List Token} (h : tiedTokens s t = true) : compareTokens s t = .eq := by
  induction s generalizing t with
  | nil => cases h
  | cons a s ih =>
      cases t with
      | nil => cases h
      | cons b t =>
          obtain ⟨hv, hrest⟩ := Bool.and_eq_true_iff.mp h
          rw [compareTokens_cons, if_pos (eq_of_beq hv)]
          by_cases hz : a.zeros = b.zeros
          · rw [if_pos hz]
            exact ih (by simpa [hz] using hrest)
          · rw [if_neg hz]

theorem isLE_compareValue {a b : Token} {s t : List Token}
    (h : (compareTokens (a :: s) (b :: t)).isLE = true) : (a.compareValue b).isLE = true := by
  rw [compareTokens_cons] at h
  by_cases hv : a.compareValue b = .eq
  · rw [hv]
    rfl
  · rwa [if_neg hv] at h

theorem compareTokens_trans {s t u : List Token}
    (hties : tiedTokens s t = true → tiedTokens t u = true → tiedTokens s u = true)
    (hst : (compareTokens s t).isLE = true) (htu : (compareTokens t u).isLE = true) :
    (compareTokens s u).isLE = true := by
  induction s generalizing t u with
  | nil => cases u <;> rfl
  | cons a s ih =>
      obtain - | ⟨b, t⟩ := t
      · cases hst
      obtain - | ⟨c, u⟩ := u
      · cases htu
      have hab := isLE_compareValue hst
      have hbc := isLE_compareValue htu
      have hac : (a.compareValue c).isLE = true := TransCmp.isLE_trans hab hbc
      rw [compareTokens_cons]
      by_cases hv : a.compareValue c = .eq
      · -- What stands between two tokens of one value has that value too.
        have hca : (c.compareValue a).isLE = true := by
          rw [Token.compareValue_swap, hv]
          rfl
        have hab' : a.compareValue b = .eq :=
          OrientedCmp.isLE_antisymm hab (TransCmp.isLE_trans hbc hca)
        have hbc' : b.compareValue c = .eq :=
          OrientedCmp.isLE_antisymm hbc (TransCmp.isLE_trans hca hab)
        simp only [tiedTokens, hab', hbc', hv, beq_self_eq_true, Bool.true_and, Bool.or_eq_true, bne_iff_ne]
          at hties
        rw [compareTokens_cons, if_pos hab'] at hst
        rw [compareTokens_cons, if_pos hbc'] at htu
        rw [if_pos hv]
        by_cases hac' : a.zeros = c.zeros
        · rw [if_pos hac']
          by_cases hz : a.zeros = b.zeros
          · rw [if_pos hz] at hst
            rw [if_pos (hz.symm.trans hac')] at htu
            refine ih (fun h h' => ?_) hst htu
            exact (hties (Or.inr h) (Or.inr h')).resolve_left (not_not_intro hac')
          · -- Both pairs are tied here, which is where the ties have to compose.
            have hz' : b.zeros ≠ c.zeros := fun e => hz (hac'.trans e.symm)
            have htied := (hties (Or.inl hz) (Or.inl hz')).resolve_left (not_not_intro hac')
            rw [compareTokens_of_tied htied]
            rfl
        · rw [if_neg hac']
          rfl
      · rwa [if_neg hv]

theorem compareTexts_self (x : String) : compareTexts x x = .eq := by
  rw [compareTexts, compareChars_eq, compareTokens_self]

theorem compareTexts_swap (x y : String) : compareTexts y x = (compareTexts x y).swap := by
  rw [compareTexts, compareTexts, compareChars_eq, compareChars_eq, compareTokens_swap]

theorem Tied.symm {x y : String} (h : Tied x y) : Tied y x := (tiedTokens_comm _ _).trans h

/-- Digit-run order is transitive wherever ties are. -/
theorem compareTexts_trans {x y z : String} (hties : Tied x y → Tied y z → Tied x z)
    (hxy : (compareTexts x y).isLE = true) (hyz : (compareTexts y z).isLE = true) :
    (compareTexts x z).isLE = true := by
  rw [compareTexts, compareChars_eq] at hxy hyz ⊢
  exact compareTokens_trans hties hxy hyz

end LayeredConfig.DigitOrder
