import LayeredConfig.Forest.Layering
import Mathlib.Tactic.Tauto

/-!
# Sound forests

A forest is *sound* when its cells and its stores agree. Owners are roots, and use the store of what they
own. No two roots share a store. The slots of a root hold exactly the nodes attached to it, each in one
slot, of the type that the slot declares; and only roots are frozen.

An operation that moves several nodes breaks this in between: a node that is on its way belongs nowhere. So
soundness is stated up to a set of *loose* nodes; between operations no node is loose.
-/

namespace LayeredConfig

namespace Forest

variable {τ κ : Type} [DecidableEq τ] [DecidableEq κ]

/-- A root that is not on its way. -/
structure Stands (loose : Node τ → Prop) (F : Forest τ κ) (r : Node τ) : Prop where
  known : F.knows r = true
  fixed : ¬ loose r
  root : F.owner? r = none

/-- The cells and the stores of a forest agree, as far as nodes are not loose. -/
structure Sound (S : Schema τ κ) (loose : Node τ → Prop) (F : Forest τ κ) : Prop where
  serial_lt : ∀ {n}, F.knows n = true → n.serial < F.next
  place_lt : ∀ {n}, F.knows n = true → F.place n < F.next
  /-- Owners are roots, and share their store with what they own. -/
  owner : ∀ {n o}, F.knows n = true → ¬ loose n → F.owner? n = some o →
    F.Stands loose o ∧ F.place n = F.place o
  place_inj : ∀ {r r'}, F.Stands loose r → F.Stands loose r' → F.place r = F.place r' → r = r'
  /-- What is in a slot of a root is attached to the root. -/
  slot : ∀ {r c m}, F.Stands loose r → F.child? r c = some m →
    F.knows m = true ∧ ¬ loose m ∧ F.owner? m = some r
  slot_inj : ∀ {r c c' m}, F.Stands loose r → F.child? r c = some m → F.child? r c' = some m → c = c'
  /-- What is attached to a root is in one of its slots. -/
  listed : ∀ {n o}, F.knows n = true → ¬ loose n → F.owner? n = some o → ∃ c, F.child? o c = some n
  flag : ∀ {n}, F.knows n = true → (F.cell n).frozen = true → F.owner? n = none
  /-- Slots hold nodes of the type that they declare, and leaves hold no nodes. -/
  typed : ∀ {a c v}, (F.storeAt a).get? c = some v → v.node?.map Node.type = S.slotType? c

/-- A forest between operations is sound, and no node is loose. -/
abbrev Coherent (S : Schema τ κ) (F : Forest τ κ) : Prop := Sound S (fun _ => False) F

abbrev IsTop (F : Forest τ κ) (r : Node τ) : Prop := F.Stands (fun _ => False) r

/-! ## What is stored after an elementary change -/

omit [DecidableEq κ] in
/-- Only known nodes have an owner. -/
theorem knows_of_owner? {F : Forest τ κ} {n o : Node τ} (h : F.owner? n = some o) : F.knows n = true := by
  rw [knows, Store.contains]
  cases hc : F.cells.get? n with
  | none =>
      rw [owner?, cell, hc] at h
      cases h
  | some c => rfl

section Stored

variable (F : Forest τ κ) (n m r d : Node τ) (c k : κ) (v : Value τ)

theorem explicit?_eq : F.explicit? n c = (F.storeAt (F.place n)).get? c := rfl

theorem child?_eq : F.child? n c = (F.explicit? n c).bind Value.node? := rfl

theorem explicit?_congr {F G : Forest τ κ} {n m : Node τ} (h : G.storeAt (G.place n) = F.storeAt (F.place m))
    (c : κ) : G.explicit? n c = F.explicit? m c := by
  rw [explicit?_eq, explicit?_eq, h]

omit [DecidableEq κ] in
@[simp] theorem owner?_withStoreAt (a : Nat) (s : Store κ (Value τ)) :
    (F.withStoreAt a s).owner? n = F.owner? n := rfl

omit [DecidableEq κ] in
@[simp] theorem place_withStoreAt (a : Nat) (s : Store κ (Value τ)) :
    (F.withStoreAt a s).place n = F.place n := rfl

@[simp] theorem owner?_put : (F.put n c v).owner? m = F.owner? m := rfl

@[simp] theorem place_put : (F.put n c v).place m = F.place m := rfl

@[simp] theorem explicit?_put :
    (F.put n c v).explicit? m k =
      if F.place m = F.place n ∧ k = c then some v else F.explicit? m k := by
  simp only [explicit?_eq, place_put, storeAt_put, storeOf]
  by_cases h : F.place m = F.place n
  · simp [h]
  · simp [h]

omit [DecidableEq κ] in
@[simp] theorem owner?_plant : (F.plant n).owner? m = if m = n then none else F.owner? m := by
  simp only [owner?, cell_plant]
  split <;> rfl

omit [DecidableEq κ] in
@[simp] theorem place_plant : (F.plant n).place m = if m = n then F.next else F.place m := by
  simp only [place, cell_plant]
  split <;> rfl

omit [DecidableEq κ] in
@[simp] theorem storeOf_plant_self : (F.plant n).storeOf n = .empty := by
  rw [storeOf, place_plant, if_pos rfl, storeAt_plant, if_pos rfl]

@[simp] theorem explicit?_plant_self : (F.plant n).explicit? n k = none := by
  simp [explicit?_eq]

theorem explicit?_plant_of_ne (hm : m ≠ n) (hp : F.place m < F.next) :
    (F.plant n).explicit? m k = F.explicit? m k := by
  have hne : F.place m ≠ F.next := Nat.ne_of_lt hp
  simp [explicit?_eq, hm, hne]

@[simp] theorem owner?_settle : (F.settle r c d).owner? m = if m = d then some r else F.owner? m := by
  simp only [owner?, cell_settle]
  split <;> rfl

@[simp] theorem place_settle : (F.settle r c d).place m = if m = d then F.place r else F.place m := by
  simp only [place, cell_settle]
  split <;> rfl

@[simp] theorem explicit?_settle :
    (F.settle r c d).explicit? m k =
      if m = d ∨ F.place m = F.place r then if k = c then some (.node d) else F.explicit? r k
      else F.explicit? m k := by
  simp only [explicit?_eq, place_settle, storeAt_settle, storeOf]
  by_cases hm : m = d
  · simp [hm]
  · by_cases hp : F.place m = F.place r
    · simp [hm, hp]
    · simp [hm, hp]

end Stored

variable {S : Schema τ κ} {loose : Node τ → Prop} {F : Forest τ κ}

/-! ## What soundness says of single nodes -/

namespace Sound

theorem mem_place (h : Sound S loose F) {n o : Node τ} (hn : F.knows n = true) (hl : ¬ loose n)
    (ho : F.owner? n = some o) : F.place n = F.place o := (h.owner hn hl ho).2

theorem stands_rootOf (h : Sound S loose F) {n : Node τ} (hn : F.knows n = true) (hl : ¬ loose n) :
    F.Stands loose (F.rootOf n) ∧ F.place n = F.place (F.rootOf n) := by
  cases ho : F.owner? n with
  | none =>
      rw [rootOf, ho]
      exact ⟨⟨hn, hl, ho⟩, rfl⟩
  | some o =>
      rw [rootOf, ho]
      exact h.owner hn hl ho

/-- A root is in no slot. -/
theorem child?_ne_root (h : Sound S loose F) {r r' : Node τ} (hr : F.Stands loose r)
    (hr' : F.owner? r' = none) (c : κ) : F.child? r c ≠ some r' := by
  intro hc
  have ho := (h.slot hr hc).2.2
  rw [hr'] at ho
  cases ho

theorem type_of_child (h : Sound S loose F) {n m : Node τ} {c : κ} (hc : F.child? n c = some m) :
    S.slotType? c = some m.type := by
  rw [child?_eq, Option.bind_eq_some_iff] at hc
  obtain ⟨v, hv, hm⟩ := hc
  rw [← h.typed hv, hm]
  rfl

theorem child?_leaf (h : Sound S loose F) {n : Node τ} {c : κ} (ht : S.slotType? c = none) :
    F.child? n c = none := by
  cases hc : F.child? n c with
  | none => rfl
  | some m =>
      rw [h.type_of_child hc] at ht
      cases ht

theorem of_loose_iff (h : Sound S loose F) {loose' : Node τ → Prop} (hl : ∀ m, loose' m ↔ loose m) :
    Sound S loose' F := by
  have e : loose' = loose := funext fun m => propext (hl m)
  exact e ▸ h

/-- Soundness does not depend on the leaves. -/
theorem of_same_slots (h : Sound S loose F) {G : Forest τ κ} (hk : ∀ m, G.knows m = F.knows m)
    (hc : ∀ m, G.cell m = F.cell m) (hn : F.next ≤ G.next)
    (hs : ∀ m c, G.child? m c = F.child? m c)
    (ht : ∀ {a c v}, (G.storeAt a).get? c = some v → v.node?.map Node.type = S.slotType? c) :
    Sound S loose G := by
  have ho : ∀ m, G.owner? m = F.owner? m := fun m => congrArg Cell.owner? (hc m)
  have hp : ∀ m, G.place m = F.place m := fun m => congrArg Cell.place (hc m)
  have hst : ∀ {r}, G.Stands loose r → F.Stands loose r := fun {r} hr =>
    ⟨hk r ▸ hr.known, hr.fixed, ho r ▸ hr.root⟩
  constructor
  case serial_lt =>
    intro n hn'
    exact Nat.lt_of_lt_of_le (h.serial_lt (hk n ▸ hn')) hn
  case place_lt =>
    intro n hn'
    rw [hp]
    exact Nat.lt_of_lt_of_le (h.place_lt (hk n ▸ hn')) hn
  case owner =>
    intro n o hn' hl ho'
    obtain ⟨hstands, hplace⟩ := h.owner (hk n ▸ hn') hl (ho n ▸ ho')
    rw [hp, hp]
    exact ⟨⟨(hk o).trans hstands.known, hstands.fixed, (ho o).trans hstands.root⟩, hplace⟩
  case place_inj =>
    intro r r' hr hr' he
    rw [hp, hp] at he
    exact h.place_inj (hst hr) (hst hr') he
  case slot =>
    intro r c m hr hm
    rw [hk, ho]
    exact h.slot (hst hr) (hs r c ▸ hm)
  case slot_inj =>
    intro r c c' m hr hm hm'
    exact h.slot_inj (hst hr) (hs r c ▸ hm) (hs r c' ▸ hm')
  case listed =>
    intro n o hn' hl ho'
    obtain ⟨c, hc'⟩ := h.listed (hk n ▸ hn') hl (ho n ▸ ho')
    exact ⟨c, (hs o c).trans hc'⟩
  case flag =>
    intro n hn' hf
    rw [ho]
    exact h.flag (hk n ▸ hn') (hc n ▸ hf)
  case typed => exact ht

end Sound

end Forest

end LayeredConfig
