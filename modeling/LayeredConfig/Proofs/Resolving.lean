import LayeredConfig.Resolver
import LayeredConfig.Proofs.Typing
import Mathlib.Logic.Basic

/-!
# Chains of resolvers

However deep chains are nested, a resolver answers as its tables do in a row from left to right
(`Resolver.tables`). A chain looks for a part that covers a characteristic and then asks this part, which looks
again among its own parts; both searches end at one table, the first one in the row that lists the
characteristic (`Resolver.default?_eq`). So the nesting does not matter, and neither do empty chains.

The parts of a chain also look at the node again, each for itself (`Resolver.answer`), where a request with a
value in reserve looks only once. The two never disagree (`Resolver.agrees`).
-/

namespace LayeredConfig

variable {τ κ : Type} [DecidableEq κ]

/-! ## One table -/

namespace ResolverTable

/-- A table lists a characteristic if a default has been registered for it. -/
def Lists (t : ResolverTable τ κ) (c : κ) : Prop := ∃ d, (c, d) ∈ t.entries

/-- The default has been registered for the characteristic, and no other one after it. -/
def ListsLast (t : ResolverTable τ κ) (c : κ) (d : Default τ κ) : Prop :=
  ∃ before after, t.entries = before ++ (c, d) :: after ∧ ∀ e ∈ after, e.1 ≠ c

variable {t : ResolverTable τ κ} {c : κ} {d : Default τ κ}

theorem default?_eq_some_iff : t.default? c = some d ↔ t.ListsLast c d := by
  rw [default?, List.lookup_eq_some_iff]
  constructor
  · rintro ⟨later, earlier, hentries, hlater⟩
    refine ⟨earlier.reverse, later.reverse, ?_, fun e he => ?_⟩
    · rw [← List.reverse_reverse t.entries, hentries]
      simp
    · have hne := hlater e (List.mem_reverse.mp he)
      exact Ne.symm (bne_iff_ne.mp hne)
  · rintro ⟨before, after, hentries, hafter⟩
    refine ⟨after.reverse, before.reverse, ?_, fun e he => ?_⟩
    · rw [hentries]
      simp
    · exact bne_iff_ne.mpr (Ne.symm (hafter e (List.mem_reverse.mp he)))

theorem default?_eq_none_iff : t.default? c = none ↔ ¬ t.Lists c := by
  rw [default?, List.lookup_eq_none_iff]
  constructor
  · rintro hnone ⟨d, hd⟩
    exact bne_iff_ne.mp (hnone (c, d) (List.mem_reverse.mpr hd)) rfl
  · intro hlists e he
    refine bne_iff_ne.mpr fun hc => hlists ⟨e.2, ?_⟩
    rw [hc]
    exact List.mem_reverse.mp he

end ResolverTable

/-! ## The row of tables -/

namespace Resolver

mutual
/-- The tables of a resolver, from left to right. -/
def tables : Resolver τ κ → List (ResolverTable τ κ)
  | table t => [t]
  | chain parts => tablesIn parts

/-- The tables of some resolvers, from left to right. -/
def tablesIn : List (Resolver τ κ) → List (ResolverTable τ κ)
  | [] => []
  | r :: rs => r.tables ++ tablesIn rs
end

/-- The default that the first table of a row supplies of those that list the characteristic. -/
def FirstIn (row : List (ResolverTable τ κ)) (c : κ) (d : Default τ κ) : Prop :=
  ∃ before t after, row = before ++ t :: after ∧ (∀ t' ∈ before, ¬ t'.Lists c) ∧ t.ListsLast c d

variable {S : Schema τ κ} {r : Resolver τ κ} {parts : List (Resolver τ κ)} {c : κ} {d : Default τ κ}

/-! Whether a resolver covers a characteristic, and the default that it has for it, are two recursions; by
induction on the nesting, the first tells whether the second finds anything, and the second searches the row.
-/

mutual
theorem covers_eq : (r : Resolver τ κ) → (c : κ) → r.covers c = (r.default? c).isSome
  | table t, c => by rw [covers, default?]
  | chain parts, c => by rw [covers, default?, anyCovers_eq parts c]

theorem anyCovers_eq : (rs : List (Resolver τ κ)) → (c : κ) → anyCovers rs c = (firstDefault? rs c).isSome
  | [], _ => rfl
  | r :: rs, c => by
      rw [anyCovers, firstDefault?, anyCovers_eq rs c, covers_eq r c]
      cases hd : r.default? c <;> simp
end

mutual
theorem default?_eq : (r : Resolver τ κ) → (c : κ) → r.default? c = r.tables.findSome? (·.default? c)
  | table t, c => by rw [default?, tables, List.findSome?_singleton]
  | chain parts, c => by rw [default?, tables, firstDefault?_eq parts c]

theorem firstDefault?_eq : (rs : List (Resolver τ κ)) → (c : κ) →
    firstDefault? rs c = (tablesIn rs).findSome? (·.default? c)
  | [], _ => rfl
  | r :: rs, c => by
      rw [firstDefault?, tablesIn, List.findSome?_append, ← default?_eq r c, ← firstDefault?_eq rs c, covers_eq]
      cases r.default? c <;> rfl
end

theorem default?_eq_some_iff : r.default? c = some d ↔ FirstIn r.tables c d := by
  rw [default?_eq, List.findSome?_eq_some_iff]
  simp only [FirstIn, ResolverTable.default?_eq_some_iff, ResolverTable.default?_eq_none_iff]
  constructor
  · rintro ⟨before, t, after, hrow, hlast, hbefore⟩
    exact ⟨before, t, after, hrow, hbefore, hlast⟩
  · rintro ⟨before, t, after, hrow, hbefore, hlast⟩
    exact ⟨before, t, after, hrow, hlast, hbefore⟩

theorem default?_eq_none_iff : r.default? c = none ↔ ∀ t ∈ r.tables, ¬ t.Lists c := by
  rw [default?_eq, List.findSome?_eq_none_iff]
  simp only [ResolverTable.default?_eq_none_iff]

theorem covers_iff : r.covers c = true ↔ ∃ t ∈ r.tables, t.Lists c := by
  rw [covers_eq, ← Option.ne_none_iff_isSome, Ne, default?_eq_none_iff]
  simp only [not_forall, not_not, exists_prop]

theorem firstDefault?_eq_find? (parts : List (Resolver τ κ)) (c : κ) :
    firstDefault? parts c = (parts.find? (·.covers c)).bind (·.default? c) := by
  induction parts with
  | nil => rfl
  | cons r rs ih =>
      rw [firstDefault?, List.find?_cons, ih]
      cases r.covers c <;> rfl

/-! ## Answers -/

variable [DecidableEq τ]

section Answers

variable {F : Forest τ κ} {n : Node τ}

theorem resolve_of_has (h : F.has n c = true) :
    r.resolve S F n c = (F.value? S n c).elim (.error (.unresolved c)) .ok := by
  simp only [resolve, h, if_true]
  cases F.value? S n c <;> rfl

theorem resolve_of_not_has (h : F.has n c = false) :
    r.resolve S F n c = (r.default? c).elim (.error (.unresolved c)) fun d => .ok (d.value F n) := by
  simp only [resolve, h, Bool.false_eq_true, if_false]
  cases r.default? c <;> rfl

/-- A chain asks the first of its parts that covers the characteristic. -/
theorem resolve_chain (h : F.has n c = false) : (chain parts).resolve S F n c =
    (parts.find? (·.covers c)).elim (.error (.unresolved c)) (·.resolve S F n c) := by
  rw [resolve_of_not_has h, default?, firstDefault?_eq_find?]
  cases parts.find? (·.covers c) with
  | none => rfl
  | some r => exact (resolve_of_not_has h).symm

theorem eq_unresolved_of_error {e : Failure τ κ} (h : r.resolve S F n c = .error e) : e = .unresolved c := by
  rw [resolve] at h
  split at h
  · cases h
  · exact (Except.error.inj h).symm

end Answers

/-- Two resolvers that give the same answers to everybody. -/
structure SameAnswers (S : Schema τ κ) (r r' : Resolver τ κ) : Prop where
  covers : ∀ c, r'.covers c = r.covers c
  resolve : ∀ F n c, r'.resolve S F n c = r.resolve S F n c
  resolveOr : ∀ F n c v, r'.resolveOr S F n c v = r.resolveOr S F n c v
  resolveContent : ∀ F n c, r'.resolveContent S F n c = r.resolveContent S F n c

/-- The nesting of a chain does not matter. -/
theorem sameAnswers_of_tables {r' : Resolver τ κ} (h : r'.tables = r.tables) : SameAnswers S r r' := by
  have hdefault : r'.default? = r.default? := by
    funext c
    rw [default?_eq, default?_eq, h]
  have hcovers : ∀ c, r'.covers c = r.covers c := fun c => by rw [covers_eq, covers_eq, hdefault]
  have hresolve : ∀ F n c, r'.resolve S F n c = r.resolve S F n c := fun F n c => by
    simp only [resolve, hdefault]
  constructor
  case covers => exact hcovers
  case resolve => exact hresolve
  case resolveOr => exact fun F n c v => by simp only [resolveOr, hcovers, hresolve]
  case resolveContent => exact fun F n c => by simp only [resolveContent, hresolve]

/-- A resolver answers as its tables do in a row. -/
structure AnswersInRow (S : Schema τ κ) (r : Resolver τ κ) : Prop where
  covers : ∀ {c}, r.covers c = true ↔ ∃ t ∈ r.tables, t.Lists c
  /-- What the node stores comes first, even if nothing can be made of it. -/
  own : ∀ {F n c}, F.has n c = true →
    r.resolve S F n c = (F.value? S n c).elim (.error (.unresolved c)) .ok
  /-- Some table supplies the characteristic, or none lists it. -/
  supply : ∀ {c}, (∃ d, FirstIn r.tables c d) ∨ ∀ t ∈ r.tables, ¬ t.Lists c
  supplied : ∀ {F n c d}, F.has n c = false → FirstIn r.tables c d →
    r.resolve S F n c = .ok (d.value F n)
  unsupplied : ∀ {F n c}, F.has n c = false → (∀ t ∈ r.tables, ¬ t.Lists c) →
    r.resolve S F n c = .error (.unresolved c)
  /-- The part that covers a characteristic first is the one that answers. -/
  asked : ∀ {parts}, r = chain parts → ∀ {F n c}, F.has n c = false →
    r.resolve S F n c = (parts.find? (·.covers c)).elim (.error (.unresolved c)) (·.resolve S F n c)
  /-- Every refusal names the characteristic in full. -/
  refusal : ∀ {F n c e}, r.resolve S F n c = .error e →
    e = .unresolved c ∧ e.message S = "there is no default resolver for " ++ S.fullName c
  regrouped : ∀ {r' : Resolver τ κ}, r'.tables = r.tables → SameAnswers S r r'

/-- **A resolver answers as its tables do in a row, however they are nested.** -/
theorem answersInRow (S : Schema τ κ) (r : Resolver τ κ) : AnswersInRow S r := by
  constructor
  case covers => exact covers_iff
  case own => exact resolve_of_has
  case supply =>
    intro c
    cases hd : r.default? c with
    | some d => exact Or.inl ⟨d, default?_eq_some_iff.mp hd⟩
    | none => exact Or.inr (default?_eq_none_iff.mp hd)
  case supplied =>
    intro F n c d hhas hfirst
    rw [resolve_of_not_has hhas, default?_eq_some_iff.mpr hfirst]
    rfl
  case unsupplied =>
    intro F n c hhas hnone
    rw [resolve_of_not_has hhas, default?_eq_none_iff.mpr hnone]
    rfl
  case asked =>
    rintro parts rfl F n c hhas
    exact resolve_chain hhas
  case refusal =>
    intro F n c e he
    obtain rfl := eq_unresolved_of_error he
    exact ⟨rfl, rfl⟩
  case regrouped => exact sameAnswers_of_tables

example (a b : ResolverTable τ κ) :
    (chain [chain [], table a, chain [chain [table b], chain []]]).tables = [a, b] := rfl

/-! ## A value in reserve -/

section Reserve

variable (S)

mutual
/-- The value of a characteristic, as every level of a chain looks for it: at the node, and then at what is
below. -/
def answer (F : Forest τ κ) (n : Node τ) (c : κ) : Resolver τ κ → Except (Failure τ κ) (Value τ)
  | table t =>
    if F.has n c then (F.value? S n c).elim (.error (.unresolved c)) .ok
    else (t.default? c).elim (.error (.unresolved c)) fun d => .ok (d.value F n)
  | chain parts =>
    if F.has n c then (F.value? S n c).elim (.error (.unresolved c)) .ok
    else firstAnswer F n c parts

/-- What the first resolver answers that covers a characteristic. -/
def firstAnswer (F : Forest τ κ) (n : Node τ) (c : κ) :
    List (Resolver τ κ) → Except (Failure τ κ) (Value τ)
  | [] => .error (.unresolved c)
  | r :: rs => if r.covers c then answer F n c r else firstAnswer F n c rs
end

/-- The derivation of a characteristic makes nothing of what the node stores. -/
def DerivesNothing (F : Forest τ κ) (n : Node τ) (c : κ) : Prop :=
  ∃ f, (S.characteristic c).resolution = .derived f ∧ f (F.view n).reading (F.explicit? n c) = none

variable {S} {F : Forest τ κ} {n : Node τ} {v : Value τ}

mutual
theorem answer_eq : (r : Resolver τ κ) → answer S F n c r = r.resolve S F n c
  | table t => by
      rw [answer]
      cases h : F.has n c with
      | true => rw [if_pos rfl, resolve_of_has h]
      | false => rw [if_neg Bool.false_ne_true, resolve_of_not_has h, default?]
  | chain parts => by
      rw [answer]
      cases h : F.has n c with
      | true => rw [if_pos rfl, resolve_of_has h]
      | false => rw [if_neg Bool.false_ne_true, resolve_of_not_has h, default?, firstAnswer_eq h parts]

theorem firstAnswer_eq (h : F.has n c = false) : (rs : List (Resolver τ κ)) → firstAnswer S F n c rs =
    (firstDefault? rs c).elim (.error (.unresolved c)) fun d => .ok (d.value F n)
  | [] => rfl
  | r :: rs => by
      rw [firstAnswer, firstDefault?, answer_eq r, resolve_of_not_has h, firstAnswer_eq h rs]
      cases r.covers c <;> rfl
end

theorem value?_eq_none_iff (h : F.has n c = true) : F.value? S n c = none ↔ DerivesNothing S F n c := by
  obtain ⟨v, hv⟩ := Option.isSome_iff_exists.mp h
  have hexplicit : F.explicit? n c = some v := hv
  show S.resolve (F.view n) c (F.explicit? n c) = none ↔ _
  rw [DerivesNothing, Schema.resolve]
  cases (S.characteristic c).resolution with
  | plain => simp [hexplicit]
  | fallback w => simp [hexplicit]
  | derived f => simp
  | identity => simp

theorem resolveOr_eq (r : Resolver τ κ) : r.resolveOr S F n c v = (r.resolve S F n c).toOption.getD v := by
  rw [resolveOr]
  cases h : F.has n c with
  | true =>
      rw [if_pos rfl, resolve_of_has h]
      cases F.value? S n c <;> rfl
  | false =>
      rw [if_neg Bool.false_ne_true, resolve_of_not_has h, covers_eq]
      cases r.default? c <;> rfl

/-- A resolver refuses what the node stores and nothing is derived from, and what it has no default for. -/
theorem resolve_eq_error_iff : (∃ e, r.resolve S F n c = .error e) ↔
    F.has n c = true ∧ DerivesNothing S F n c ∨ F.has n c = false ∧ r.covers c = false := by
  cases h : F.has n c with
  | true =>
      rw [resolve_of_has h, ← value?_eq_none_iff h]
      cases F.value? S n c <;> simp
  | false =>
      rw [resolve_of_not_has h, covers_eq]
      cases r.default? c <;> simp

/-- A resolver answers with a value in reserve as it does without. -/
structure Agrees (S : Schema τ κ) (r : Resolver τ κ) : Prop where
  /-- Every level of a chain finds what the outermost one does. -/
  levels : ∀ {F n c}, r.answer S F n c = r.resolve S F n c
  answered : ∀ {F n c v} w, r.resolve S F n c = .ok v → r.resolveOr S F n c w = v
  refused : ∀ {F n c e} w, r.resolve S F n c = .error e → r.resolveOr S F n c w = w
  refuses_iff : ∀ {F n c}, (∃ e, r.resolve S F n c = .error e) ↔
    F.has n c = true ∧ DerivesNothing S F n c ∨ F.has n c = false ∧ r.covers c = false
  refusal : ∀ {F n c e}, r.resolve S F n c = .error e →
    e = .unresolved c ∧ e.message S = "there is no default resolver for " ++ S.fullName c
  explicit : ∀ {F n c v}, Forest.Straight S c → F.explicit? n c = some v → r.resolve S F n c = .ok v

/-- **A request with a value in reserve never disagrees with one without.** -/
theorem agrees (S : Schema τ κ) (r : Resolver τ κ) : Agrees S r := by
  constructor
  case levels => exact answer_eq r
  case answered =>
    intro F n c v w h
    rw [resolveOr_eq, h]
    rfl
  case refused =>
    intro F n c e w h
    rw [resolveOr_eq, h]
    rfl
  case refuses_iff => exact resolve_eq_error_iff
  case refusal =>
    intro F n c e he
    obtain rfl := eq_unresolved_of_error he
    exact ⟨rfl, rfl⟩
  case explicit =>
    intro F n c v hc hv
    have hhas : F.has n c = true := Option.isSome_iff_exists.mpr ⟨v, hv⟩
    rw [resolve_of_has hhas, Forest.value?_of_straight hc hv]
    rfl

end Reserve

end Resolver

end LayeredConfig
