import LayeredConfig.Proofs.Sound.Moving

/-!
# Grafting keeps soundness

While a node is grafted, the nodes in the slots that are still to come over are loose. `Grafting` describes
the forest at that time: `Grafting.start` holds once the node is in its slot, `Grafting.step` takes one slot
over, and when no slot is left the forest is coherent again.
-/

namespace LayeredConfig

namespace Forest

variable {τ κ : Type} [DecidableEq τ] [DecidableEq κ]

variable {S : Schema τ κ} {F : Forest τ κ} {r d : Node τ} {c : κ}

def slotsIn (F : Forest τ κ) (d : Node τ) : List (κ × Value τ) :=
  (F.storeOf d).entries.filter fun e => e.2.node?.isSome

def leavesIn (F : Forest τ κ) (d : Node τ) : List (κ × Value τ) :=
  (F.storeOf d).entries.filter fun e => !e.2.node?.isSome

theorem graft_eq (F : Forest τ κ) (r : Node τ) (c : κ) (d : Node τ) :
    F.graft S r c d =
      (F.leavesIn d).foldl (receive r) ((F.slotsIn d).foldl (graftSlot S r) (F.settle r c d)) := rfl

theorem mem_slotsIn {k : κ} {v : Value τ} :
    (k, v) ∈ F.slotsIn d ↔ ∃ m, v = .node m ∧ F.child? d k = some m := by
  rw [slotsIn, List.mem_filter, ← Store.get?_eq_some_iff]
  constructor
  · rintro ⟨hv, hs⟩
    obtain ⟨m, hm⟩ := Option.isSome_iff_exists.mp hs
    obtain rfl := node?_eq_some.mp hm
    exact ⟨m, rfl, child?_eq_some.mpr hv⟩
  · rintro ⟨m, rfl, hm⟩
    exact ⟨child?_eq_some.mp hm, rfl⟩

theorem mem_leavesIn {k : κ} {v : Value τ} :
    (k, v) ∈ F.leavesIn d ↔ v.node? = none ∧ F.explicit? d k = some v := by
  rw [leavesIn, List.mem_filter, ← Store.get?_eq_some_iff]
  constructor
  · rintro ⟨hv, hs⟩
    exact ⟨by simpa using hs, hv⟩
  · rintro ⟨hn, hv⟩
    exact ⟨hv, by simp [hn]⟩

omit [DecidableEq κ] in
theorem nodup_keys_slotsIn (F : Forest τ κ) (d : Node τ) : ((F.slotsIn d).map Prod.fst).Nodup :=
  (F.storeOf d).nodup_keys.sublist (List.filter_sublist.map Prod.fst)

omit [DecidableEq κ] in
theorem nodup_keys_leavesIn (F : Forest τ κ) (d : Node τ) : ((F.leavesIn d).map Prod.fst).Nodup :=
  (F.storeOf d).nodup_keys.sublist (List.filter_sublist.map Prod.fst)

theorem nodesIn_leavesIn (F : Forest τ κ) (d : Node τ) : nodesIn (F.leavesIn d) = [] := by
  rw [nodesIn, List.filterMap_eq_nil_iff]
  rintro ⟨k, v⟩ he
  exact (mem_leavesIn.mp he).1

/-- The forest while a node is grafted onto the root `r`: the slots `es` are still to come over. -/
structure Grafting (S : Schema τ κ) (r : Node τ) (es : List (κ × Value τ)) (F : Forest τ κ) : Prop where
  sound : Sound S (fun m => m ∈ nodesIn es) F
  stands : F.Stands (fun m => m ∈ nodesIn es) r
  nodup_keys : (es.map Prod.fst).Nodup
  nodup_nodes : (nodesIn es).Nodup
  slot : ∀ e ∈ es, ∃ m, e.2 = .node m ∧ S.slotType? e.1 = some m.type
  known : ∀ m ∈ nodesIn es, F.knows m = true

namespace Grafting

/-- The slots of the node are to come over when the node itself is in its slot. -/
theorem start (h : Coherent S F) (hr : F.IsTop r) (hd : F.IsTop d) (hrd : r ≠ d)
    (hc : F.child? r c = none) (ht : S.slotType? c = some d.type) :
    Grafting S r (F.slotsIn d) (F.settle r c d) := by
  have hmem : ∀ {m}, m ∈ nodesIn (F.slotsIn d) ↔ ∃ k, F.child? d k = some m := by
    intro m
    rw [mem_nodesIn]
    constructor
    · rintro ⟨k, hk⟩
      obtain ⟨m', hm', hk'⟩ := mem_slotsIn.mp hk
      cases hm'
      exact ⟨k, hk'⟩
    · rintro ⟨k, hk⟩
      exact ⟨k, mem_slotsIn.mpr ⟨m, rfl, hk⟩⟩
  -- The loose nodes are those of the tree of `d`, that is, those in its slots.
  have hloose : ∀ m,
      m ∈ nodesIn (F.slotsIn d) ↔ (False ∨ m = d ∨ F.owner? m = some d) ∧ m ≠ d := by
    intro m
    rw [hmem]
    constructor
    · rintro ⟨k, hk⟩
      have ho := (h.slot hd hk).2.2
      refine ⟨Or.inr (Or.inr ho), ?_⟩
      rintro rfl
      rw [hd.root] at ho
      cases ho
    · rintro ⟨hf | rfl | ho, hne⟩
      · exact hf.elim
      · exact absurd rfl hne
      · exact h.listed (knows_of_owner? ho) (fun hf => hf) ho
  have hr' : F.Stands (fun m => False ∨ m = d ∨ F.owner? m = some d) r := by
    refine ⟨hr.known, ?_, hr.root⟩
    rintro (hf | rfl | ho)
    · exact hf
    · exact hrd rfl
    · rw [hr.root] at ho
      cases ho
  constructor
  case sound =>
    exact ((h.uproot hd).settle hr' (fun _ => Or.inr (Or.inl rfl)) (h.serial_lt hd.known) hc
      ht).of_loose_iff hloose
  case stands =>
    refine ⟨by simp [hr.known], ?_, by rw [owner?_settle, if_neg hrd, hr.root]⟩
    rw [hloose]
    exact fun hl => hr'.fixed hl.1
  case nodup_keys => exact nodup_keys_slotsIn F d
  case nodup_nodes =>
    refine nodup_nodesIn (nodup_keys_slotsIn F d) fun k k' m hk hk' => ?_
    obtain ⟨m₁, he₁, h₁⟩ := mem_slotsIn.mp hk
    obtain ⟨m₂, he₂, h₂⟩ := mem_slotsIn.mp hk'
    cases he₁
    cases he₂
    exact h.slot_inj hd h₁ h₂
  case slot =>
    rintro ⟨k, v⟩ he
    obtain ⟨m, rfl, hm⟩ := mem_slotsIn.mp he
    exact ⟨m, rfl, h.type_of_child hm⟩
  case known =>
    intro m hm
    obtain ⟨k, hk⟩ := hmem.mp hm
    simp [(h.slot hd hk).1]

theorem step {k : κ} {m : Node τ} {es : List (κ × Value τ)} (h : Grafting S r ((k, .node m) :: es) F) :
    Grafting S r es (graftSlot S r F (k, .node m)) := by
  have hkeys := List.nodup_cons.mp (List.map_cons ▸ h.nodup_keys)
  have hnodes := List.nodup_cons.mp (nodesIn_cons_node k m es ▸ h.nodup_nodes)
  have hsound := h.sound.evict h.stands k
  have hstands := Stands.evict h.sound h.stands k h.stands
  have hfree := child?_evict h.sound h.stands k
  have hmk := h.known m (List.mem_cons_self ..)
  have hm : m ∈ nodesIn ((k, Value.node m) :: es) := List.mem_cons_self ..
  have ht : S.slotType? k = some m.type := by
    obtain ⟨m', he, ht⟩ := h.slot _ (List.mem_cons_self ..)
    cases he
    exact ht
  have hrm : r ≠ m := fun e => h.stands.fixed (e ▸ hm)
  have hknown : ∀ {x}, (F.evict S r k).knows x = F.knows x := fun {x} => knows_evict h.sound h.stands k x
  -- To empty the slot fixes no loose node and loosens none, so just `m` is taken off the list.
  have hloose : ∀ x, x ∈ nodesIn es ↔ x ∈ nodesIn ((k, Value.node m) :: es) ∧ x ≠ m := by
    intro x
    rw [nodesIn_cons_node, List.mem_cons]
    constructor
    · intro hx
      exact ⟨Or.inr hx, fun e => hnodes.1 (e ▸ hx)⟩
    · rintro ⟨rfl | hx, hne⟩
      · exact absurd rfl hne
      · exact hx
  rw [graftSlot, receive_node]
  constructor
  case sound =>
    exact (hsound.settle hstands (fun _ => hm) (hsound.serial_lt (hknown.trans hmk)) hfree
      ht).of_loose_iff hloose
  case stands =>
    refine ⟨by simp [hstands.known], ?_, by rw [owner?_settle, if_neg hrm, hstands.root]⟩
    rw [hloose]
    exact fun hl => hstands.fixed hl.1
  case nodup_keys => exact hkeys.2
  case nodup_nodes => exact hnodes.2
  case slot => exact fun e he => h.slot e (List.mem_cons_of_mem _ he)
  case known =>
    intro x hx
    simp [hknown, h.known x (List.mem_cons_of_mem _ hx)]

theorem run {es : List (κ × Value τ)} (h : Grafting S r es F) :
    Grafting S r [] (es.foldl (graftSlot S r) F) := by
  induction es generalizing F with
  | nil => exact h
  | cons e es ih =>
      obtain ⟨m, he, -⟩ := h.slot e (List.mem_cons_self ..)
      obtain ⟨k, v⟩ := e
      obtain rfl : v = .node m := he
      exact ih h.step

theorem coherent (h : Grafting S r [] F) : Coherent S F :=
  h.sound.of_loose_iff fun _ => ⟨fun hf => hf.elim, fun hm => absurd hm List.not_mem_nil⟩

theorem isTop {es : List (κ × Value τ)} (h : Grafting S r es F) : F.IsTop r :=
  ⟨h.stands.known, fun hf => hf, h.stands.root⟩

end Grafting

/-- Leaves may be received at any time. -/
theorem Sound.receiveLeaves {loose : Node τ → Prop} (h : Sound S loose F) {es : List (κ × Value τ)}
    (he : ∀ e ∈ es, e.2.node? = none ∧ S.slotType? e.1 = none) :
    Sound S loose (es.foldl (receive r) F) := by
  induction es generalizing F with
  | nil => exact h
  | cons e es ih =>
      obtain ⟨hv, hc⟩ := he e (List.mem_cons_self ..)
      rw [List.foldl_cons, receive_leaf r F hv]
      exact ih (h.put_leaf r hc hv) fun e' he' => he e' (List.mem_cons_of_mem _ he')

theorem leaves_typed (h : Coherent S F) (d : Node τ) :
    ∀ e ∈ F.leavesIn d, e.2.node? = none ∧ S.slotType? e.1 = none := by
  rintro ⟨k, v⟩ he
  obtain ⟨hn, hv⟩ := mem_leavesIn.mp he
  exact ⟨hn, by rw [← h.typed hv, hn]; rfl⟩

/-- A root onto which a node is grafted stays a root. -/
theorem isTop_graft (h : Coherent S F) (hr : F.IsTop r) (hd : F.IsTop d) (hrd : r ≠ d)
    (hc : F.child? r c = none) (ht : S.slotType? c = some d.type) : (F.graft S r c d).IsTop r := by
  have hrun := (Grafting.start h hr hd hrd hc ht).run.isTop
  have hleaves : r ∉ nodesIn (F.leavesIn d) := by
    rw [nodesIn_leavesIn]
    exact List.not_mem_nil
  rw [graft_eq]
  refine ⟨(knows_receiveAll r _ _ r).mpr (Or.inr hrun.known), fun hf => hf, ?_⟩
  rw [owner?_receiveAll hleaves, if_neg hleaves]
  exact hrun.root

/-- **To graft a node keeps coherence.** -/
theorem Sound.graft (h : Coherent S F) (hr : F.IsTop r) (hd : F.IsTop d) (hrd : r ≠ d)
    (hc : F.child? r c = none) (ht : S.slotType? c = some d.type) : Coherent S (F.graft S r c d) := by
  rw [graft_eq]
  exact (Grafting.start h hr hd hrd hc ht).run.coherent.receiveLeaves (leaves_typed h d)

end Forest

end LayeredConfig
