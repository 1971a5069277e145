import LayeredConfig.Proofs.Sound.Elementary

/-!
# Releasing and grafting keep soundness

Both operations move entries one by one into the tree of a root. `receiveAll` says what the forest is after
that, and `Sound.receiveAll` that every loose node among the entries is fixed by it. To release a node is to
pluck its slot and its belongings, to plant it, and to have it receive them; to graft one is to uproot its
tree, to settle it, and to have the other root receive the entries, each after the slot is emptied.
-/

namespace LayeredConfig

variable {τ κ : Type}

def nodesIn (es : List (κ × Value τ)) : List (Node τ) := es.filterMap fun e => e.2.node?

theorem mem_nodesIn {es : List (κ × Value τ)} {m : Node τ} :
    m ∈ nodesIn es ↔ ∃ k, (k, Value.node m) ∈ es := by
  rw [nodesIn, List.mem_filterMap]
  constructor
  · rintro ⟨⟨k, v⟩, he, hv⟩
    cases v <;> cases hv
    exact ⟨k, he⟩
  · rintro ⟨k, hk⟩
    exact ⟨_, hk, rfl⟩

namespace Forest

theorem entry_cases (e : κ × Value τ) : (∃ c d, e = (c, .node d)) ∨ e.2.node? = none := by
  obtain ⟨c, v⟩ := e
  cases v <;> first | exact Or.inr rfl | exact Or.inl ⟨_, _, rfl⟩

theorem nodesIn_cons_node (c : κ) (d : Node τ) (es : List (κ × Value τ)) :
    nodesIn ((c, .node d) :: es) = d :: nodesIn es := rfl

theorem nodesIn_cons_leaf {e : κ × Value τ} (h : e.2.node? = none) (es : List (κ × Value τ)) :
    nodesIn (e :: es) = nodesIn es := by
  rw [nodesIn, List.filterMap_cons, h]
  rfl

variable [DecidableEq τ] [DecidableEq κ]

variable {S : Schema τ κ} {loose : Node τ → Prop} {F : Forest τ κ} {r : Node τ}

theorem receive_node (r : Node τ) (F : Forest τ κ) (c : κ) (d : Node τ) :
    receive r F (c, .node d) = F.settle r c d := rfl

theorem receive_leaf (r : Node τ) (F : Forest τ κ) {e : κ × Value τ} (h : e.2.node? = none) :
    receive r F e = F.put r e.1 e.2 := by
  obtain ⟨c, v⟩ := e
  cases v <;> first | rfl | cases h

/-! ## The forest after some entries are received -/

theorem knows_receiveAll (r : Node τ) (F : Forest τ κ) (es : List (κ × Value τ)) (m : Node τ) :
    (es.foldl (receive r) F).knows m = true ↔ m ∈ nodesIn es ∨ F.knows m = true := by
  induction es generalizing F with
  | nil => simp [nodesIn]
  | cons e es ih =>
      rw [List.foldl_cons, ih]
      rcases entry_cases e with ⟨c, d, rfl⟩ | he
      · rw [receive_node, knows_settle, nodesIn_cons_node, List.mem_cons, Bool.or_eq_true, decide_eq_true_eq]
        tauto
      · rw [receive_leaf r F he, knows_put, nodesIn_cons_leaf he]

theorem next_receiveAll (r : Node τ) (F : Forest τ κ) (es : List (κ × Value τ)) :
    (es.foldl (receive r) F).next = F.next := by
  induction es generalizing F with
  | nil => rfl
  | cons e es ih =>
      rw [List.foldl_cons, ih]
      rcases entry_cases e with ⟨c, d, rfl⟩ | he
      · rfl
      · rw [receive_leaf r F he, next_put]

theorem cell_receiveAll {es : List (κ × Value τ)} (hr : r ∉ nodesIn es) (F : Forest τ κ) (m : Node τ) :
    (es.foldl (receive r) F).cell m =
      if m ∈ nodesIn es then ⟨some r, F.place r, false⟩ else F.cell m := by
  induction es generalizing F with
  | nil => simp [nodesIn]
  | cons e es ih =>
      rw [List.foldl_cons]
      rcases entry_cases e with ⟨c, d, rfl⟩ | he
      · rw [nodesIn_cons_node, List.mem_cons, not_or] at hr
        rw [ih hr.2, receive_node, place_settle, if_neg hr.1, cell_settle, nodesIn_cons_node]
        by_cases hm : m ∈ nodesIn es
        · simp [hm]
        · simp [hm]
      · rw [nodesIn_cons_leaf he] at hr ⊢
        rw [ih hr, receive_leaf r F he, place_put, cell_put]

theorem storeAt_receiveAll {es : List (κ × Value τ)} (hr : r ∉ nodesIn es) (F : Forest τ κ) (a : Nat) :
    (es.foldl (receive r) F).storeAt a =
      if a = F.place r then (F.storeOf r).insertAll es else F.storeAt a := by
  induction es generalizing F with
  | nil =>
      split
      · next ha => rw [ha]; rfl
      · rfl
  | cons e es ih =>
      rw [List.foldl_cons]
      rcases entry_cases e with ⟨c, d, rfl⟩ | he
      · rw [nodesIn_cons_node, List.mem_cons, not_or] at hr
        rw [ih hr.2, receive_node, storeOf, place_settle, if_neg hr.1, storeAt_settle, if_pos rfl,
          storeAt_settle]
        split <;> rfl
      · rw [nodesIn_cons_leaf he] at hr
        rw [ih hr, receive_leaf r F he, storeOf, place_put, storeAt_put, if_pos rfl, storeAt_put]
        split <;> rfl

theorem owner?_receiveAll {es : List (κ × Value τ)} (hr : r ∉ nodesIn es) (F : Forest τ κ) (m : Node τ) :
    (es.foldl (receive r) F).owner? m = if m ∈ nodesIn es then some r else F.owner? m := by
  rw [owner?, cell_receiveAll hr]
  split <;> rfl

namespace Sound

/-- A root receives some entries under keys that are free, among them loose nodes. -/
theorem receiveAll {es : List (κ × Value τ)} (h : Sound S loose F) (hr : F.Stands loose r)
    (hk : (es.map Prod.fst).Nodup) (hm : (nodesIn es).Nodup)
    (hfree : ∀ e ∈ es, F.explicit? r e.1 = none)
    (hty : ∀ e ∈ es, e.2.node?.map Node.type = S.slotType? e.1)
    (hl : ∀ m ∈ nodesIn es, F.knows m = true ∧ loose m) :
    Sound S (fun m => loose m ∧ m ∉ nodesIn es) (es.foldl (receive r) F) := by
  induction es generalizing F loose with
  | nil => exact h.of_loose_iff fun m => by simp [nodesIn]
  | cons e es ih =>
      rw [List.map_cons, List.nodup_cons] at hk
      have hne : ∀ e' ∈ es, e'.1 ≠ e.1 := fun e' he' hee => hk.1 (hee ▸ List.mem_map_of_mem he')
      have hfree' : ∀ e' ∈ es, F.explicit? r e'.1 = none := fun e' he' =>
        hfree e' (List.mem_cons_of_mem _ he')
      have hty' : ∀ e' ∈ es, e'.2.node?.map Node.type = S.slotType? e'.1 := fun e' he' =>
        hty e' (List.mem_cons_of_mem _ he')
      have hty₀ := hty e (List.mem_cons_self ..)
      have hfree₀ := hfree e (List.mem_cons_self ..)
      rw [List.foldl_cons]
      rcases entry_cases e with ⟨c, d, rfl⟩ | he
      · rw [nodesIn_cons_node] at hm hl ⊢
        rw [List.nodup_cons] at hm
        obtain ⟨hdk, hdl⟩ := hl d (List.mem_cons_self ..)
        have hrd : r ≠ d := fun e => hr.fixed (e ▸ hdl)
        have hc : F.child? r c = none := by rw [child?_eq, hfree₀]; rfl
        have hs := h.settle hr (fun _ => hdl) (h.serial_lt hdk) hc hty₀.symm
        have hr' : (F.settle r c d).Stands (fun m => loose m ∧ m ≠ d) r :=
          ⟨by simp [hr.known], fun hl => hr.fixed hl.1, by rw [owner?_settle, if_neg hrd, hr.root]⟩
        rw [receive_node]
        -- The node that came in is fixed now; the nodes of the other entries are as loose as before.
        refine (ih hs hr' hk.2 hm.2 ?_ hty' ?_).of_loose_iff fun m => ?_
        · intro e' he'
          rw [explicit?_settle, if_pos (Or.inr rfl), if_neg (hne e' he')]
          exact hfree' e' he'
        · intro m hmem
          obtain ⟨hmk, hml⟩ := hl m (List.mem_cons_of_mem _ hmem)
          exact ⟨by simp [hmk], hml, fun e => hm.1 (e ▸ hmem)⟩
        · rw [List.mem_cons, not_or]
          tauto
      · rw [nodesIn_cons_leaf he] at hm hl ⊢
        rw [receive_leaf r F he]
        have hc : S.slotType? e.1 = none := by rw [← hty₀, he]; rfl
        refine ih (h.put_leaf r hc he) ⟨hr.known, hr.fixed, hr.root⟩ hk.2 hm ?_ hty' hl
        intro e' he'
        rw [explicit?_put, if_neg fun hand => hne e' he' hand.2]
        exact hfree' e' he'

end Sound

/-! ## The forest after a node is released -/

/-- What the node `d` takes along when it leaves the slot `c`. -/
def takenBy (S : Schema τ κ) (F : Forest τ κ) (c : κ) (d : Node τ) : List (κ × Value τ) :=
  S.taken (F.storeOf d) c d.type

omit [DecidableEq τ] [DecidableEq κ] in
theorem nodup_nodesIn {es : List (κ × Value τ)} (hk : (es.map Prod.fst).Nodup)
    (hi : ∀ k k' m, (k, Value.node m) ∈ es → (k', Value.node m) ∈ es → k = k') : (nodesIn es).Nodup := by
  induction es with
  | nil => exact List.nodup_nil
  | cons e es ih =>
      rw [List.map_cons, List.nodup_cons] at hk
      have ih' := ih hk.2 fun k k' m h h' =>
        hi k k' m (List.mem_cons_of_mem _ h) (List.mem_cons_of_mem _ h')
      rcases entry_cases e with ⟨c, d, rfl⟩ | he
      · rw [nodesIn_cons_node, List.nodup_cons]
        refine ⟨fun hd => ?_, ih'⟩
        obtain ⟨k, hkd⟩ := mem_nodesIn.mp hd
        have hck := hi c k d (List.mem_cons_self ..) (List.mem_cons_of_mem _ hkd)
        exact hk.1 (hck ▸ List.mem_map_of_mem hkd)
      · rw [nodesIn_cons_leaf he]
        exact ih'

omit [DecidableEq τ] in
theorem node?_eq_some {v : Value τ} {m : Node τ} : v.node? = some m ↔ v = .node m := by
  cases v <;> simp [Value.node?]

theorem child?_eq_some {n m : Node τ} {c : κ} : F.child? n c = some m ↔ F.explicit? n c = some (.node m) := by
  rw [child?_eq, Option.bind_eq_some_iff]
  constructor
  · rintro ⟨v, hv, hm⟩
    rw [hv, node?_eq_some.mp hm]
  · intro hv
    exact ⟨_, hv, rfl⟩

section Release

variable {c : κ} {d : Node τ} (h : Sound S loose F) (hr : F.Stands loose r) (hc : F.child? r c = some d)

include h hr hc

theorem place_child : F.place d = F.place r := by
  obtain ⟨hdk, hdl, hdo⟩ := h.slot hr hc
  exact h.mem_place hdk hdl hdo

theorem mem_takenBy {k : κ} {v : Value τ} :
    (k, v) ∈ takenBy S F c d ↔ k ≠ c ∧ S.belongs d.type k = true ∧ F.explicit? r k = some v := by
  rw [takenBy, Schema.mem_taken, storeOf, place_child h hr hc]
  rfl

theorem mem_nodesIn_takenBy {m : Node τ} :
    m ∈ nodesIn (takenBy S F c d) ↔ ∃ k, k ≠ c ∧ S.belongs d.type k = true ∧ F.child? r k = some m := by
  simp only [mem_nodesIn, mem_takenBy h hr hc, child?_eq_some]

theorem notMem_nodesIn_takenBy : d ∉ nodesIn (takenBy S F c d) := by
  rw [mem_nodesIn_takenBy h hr hc]
  rintro ⟨k, hk, -, hd⟩
  exact hk (h.slot_inj hr hd hc)

theorem nodup_nodesIn_takenBy : (nodesIn (takenBy S F c d)).Nodup := by
  refine nodup_nodesIn (Schema.nodup_keys_taken _ _ _) fun k k' m hk hk' => ?_
  rw [mem_takenBy h hr hc] at hk hk'
  exact h.slot_inj hr (child?_eq_some.mpr hk.2.2) (child?_eq_some.mpr hk'.2.2)

theorem root_notMem_takenBy {r' : Node τ} (hr' : F.owner? r' = none) :
    r' ∉ nodesIn (takenBy S F c d) := by
  rw [mem_nodesIn_takenBy h hr hc]
  rintro ⟨k, -, -, hk⟩
  exact h.child?_ne_root hr hr' k hk

theorem root_ne : r ≠ d := fun e => h.child?_ne_root hr hr.root c (e ▸ hc)

/-- A released node takes its place as a root, and receives what it takes along. -/
theorem release_eq : F.release S c d =
    (takenBy S F c d).foldl (receive d)
      ((F.withStoreAt (F.place r)
        ((F.storeOf r).eraseAll (c :: (takenBy S F c d).map Prod.fst))).plant d) := by
  have hp := place_child h hr hc
  simp only [release, takenBy, Schema.remainder, storeOf, hp]

theorem knows_release (m : Node τ) : (F.release S c d).knows m = F.knows m := by
  have hdk := (h.slot hr hc).1
  rw [Bool.eq_iff_iff, release_eq h hr hc, knows_receiveAll, knows_plant, knows_withStoreAt, Bool.or_eq_true,
    decide_eq_true_eq, mem_nodesIn_takenBy h hr hc]
  constructor
  · rintro (⟨k, -, -, hk⟩ | rfl | hm)
    · exact (h.slot hr hk).1
    · exact hdk
    · exact hm
  · intro hm
    exact Or.inr (Or.inr hm)

theorem next_release : (F.release S c d).next = F.next + 1 := by
  rw [release_eq h hr hc, next_receiveAll, next_plant, next_withStoreAt]

theorem cell_release (m : Node τ) : (F.release S c d).cell m =
    if m ∈ nodesIn (takenBy S F c d) then ⟨some d, F.next, false⟩
    else if m = d then ⟨none, F.next, false⟩ else F.cell m := by
  rw [release_eq h hr hc, cell_receiveAll (notMem_nodesIn_takenBy h hr hc), place_plant, if_pos rfl,
    cell_plant, next_withStoreAt, cell_withStoreAt]

theorem storeAt_release (a : Nat) : (F.release S c d).storeAt a =
    if a = F.next then Store.empty.insertAll (takenBy S F c d)
    else if a = F.place r then S.remainder (F.storeOf r) c d.type else F.storeAt a := by
  have hs : S.remainder (F.storeOf r) c d.type =
      (F.storeOf r).eraseAll (c :: (takenBy S F c d).map Prod.fst) := by
    rw [takenBy, storeOf, storeOf, place_child h hr hc]
    rfl
  rw [release_eq h hr hc, storeAt_receiveAll (notMem_nodesIn_takenBy h hr hc), place_plant, if_pos rfl,
    storeOf_plant_self, storeAt_plant, next_withStoreAt, storeAt_withStoreAt, hs]
  split <;> rfl

theorem owner?_release (m : Node τ) : (F.release S c d).owner? m =
    if m ∈ nodesIn (takenBy S F c d) then some d else if m = d then none else F.owner? m := by
  rw [owner?, cell_release h hr hc]
  split
  · rfl
  · split <;> rfl

theorem place_release (m : Node τ) : (F.release S c d).place m =
    if m ∈ nodesIn (takenBy S F c d) ∨ m = d then F.next else F.place m := by
  rw [place, cell_release h hr hc]
  by_cases hm : m ∈ nodesIn (takenBy S F c d)
  · rw [if_pos hm, if_pos (Or.inl hm)]
  · by_cases hd : m = d
    · rw [if_neg hm, if_pos hd, if_pos (Or.inr hd)]
    · rw [if_neg hm, if_neg hd, if_neg (not_or.mpr ⟨hm, hd⟩)]
      rfl

theorem place_release_root : (F.release S c d).place r = F.place r := by
  rw [place_release h hr hc, if_neg]
  exact not_or.mpr ⟨root_notMem_takenBy h hr hc hr.root, root_ne h hr hc⟩

theorem storeOf_release_root : (F.release S c d).storeOf r = S.remainder (F.storeOf r) c d.type := by
  rw [storeOf, place_release_root h hr hc, storeAt_release h hr hc,
    if_neg (Nat.ne_of_lt (h.place_lt hr.known)), if_pos rfl]

/-- The root that a node leaves keeps what does not belong to the node. -/
theorem explicit?_release_root (k : κ) : (F.release S c d).explicit? r k =
    if k = c ∨ S.belongs d.type k = true then none else F.explicit? r k := by
  rw [explicit?, storeOf_release_root h hr hc, Schema.get?_remainder]
  rfl

/-- The released node holds what belongs to it, the slot that it left apart. -/
theorem explicit?_release_self (k : κ) : (F.release S c d).explicit? d k =
    if k ≠ c ∧ S.belongs d.type k = true then F.explicit? r k else none := by
  have hp : (F.release S c d).place d = F.next := by
    rw [place_release h hr hc, if_pos (Or.inr rfl)]
  have hn : ((takenBy S F c d).map Prod.fst).Nodup := Schema.nodup_keys_taken _ _ _
  rw [explicit?_eq, hp, storeAt_release h hr hc, if_pos rfl]
  split
  · next hk =>
    cases hv : F.explicit? r k with
    | none =>
        rw [Store.get?_insertAll_of_notMem, Store.get?_empty]
        intro hm
        obtain ⟨⟨k', v⟩, he, rfl⟩ := List.mem_map.mp hm
        have hsome := ((mem_takenBy h hr hc).mp he).2.2
        rw [hv] at hsome
        cases hsome
    | some v => exact Store.get?_insertAll_of_mem _ hn ((mem_takenBy h hr hc).mpr ⟨hk.1, hk.2, hv⟩)
  · next hk =>
    rw [Store.get?_insertAll_of_notMem, Store.get?_empty]
    intro hm
    obtain ⟨⟨k', v⟩, he, rfl⟩ := List.mem_map.mp hm
    have hmem := (mem_takenBy h hr hc).mp he
    exact hk ⟨hmem.1, hmem.2.1⟩

/-- **To release a node keeps soundness.** -/
theorem Sound.release : Sound S loose (F.release S c d) := by
  obtain ⟨hdk, hdl, hdo⟩ := h.slot hr hc
  have hkeys : ∀ k, k ∈ c :: (takenBy S F c d).map Prod.fst ↔
      k = c ∨ ∃ v, (k, v) ∈ takenBy S F c d := by
    intro k
    rw [List.mem_cons, List.mem_map]
    constructor
    · rintro (rfl | ⟨⟨k', v⟩, he, rfl⟩)
      · exact Or.inl rfl
      · exact Or.inr ⟨v, he⟩
    · rintro (rfl | ⟨v, he⟩)
      · exact Or.inl rfl
      · exact Or.inr ⟨_, he, rfl⟩
  have hplucked := h.pluck hr (c :: (takenBy S F c d).map Prod.fst)
  have hdloose : ∃ k ∈ c :: (takenBy S F c d).map Prod.fst, F.child? r k = some d :=
    ⟨c, List.mem_cons_self .., hc⟩
  -- The node is among what was plucked, and is the only loose node that becomes a root.
  have hplanted := hplucked.plant (fun _ => Or.inr hdloose) (Nat.le_of_lt (h.serial_lt hdk))
  have hstands : ((F.withStoreAt (F.place r)
      ((F.storeOf r).eraseAll (c :: (takenBy S F c d).map Prod.fst))).plant d).Stands
      (fun m => (loose m ∨ ∃ k ∈ c :: (takenBy S F c d).map Prod.fst, F.child? r k = some m) ∧ m ≠ d) d :=
    ⟨by simp, fun hl => hl.2 rfl, by rw [owner?_plant, if_pos rfl]⟩
  rw [release_eq h hr hc]
  refine (hplanted.receiveAll hstands (Schema.nodup_keys_taken _ _ _) (nodup_nodesIn_takenBy h hr hc)
    ?_ ?_ ?_).of_loose_iff ?_
  · intro e _
    exact explicit?_plant_self ..
  · intro e he
    obtain ⟨k, v⟩ := e
    exact h.typed ((mem_takenBy h hr hc).mp he).2.2
  · intro m hm
    obtain ⟨k, hk, hb, hkm⟩ := (mem_nodesIn_takenBy h hr hc).mp hm
    have hmem := (mem_takenBy h hr hc).mpr ⟨hk, hb, child?_eq_some.mp hkm⟩
    refine ⟨by simp [(h.slot hr hkm).1], Or.inr ⟨k, (hkeys k).mpr (Or.inr ⟨_, hmem⟩), hkm⟩, ?_⟩
    rintro rfl
    exact notMem_nodesIn_takenBy h hr hc hm
  · -- Every node that was plucked is fixed again: `d` as a root, the others as attached to `d`.
    intro m
    constructor
    · intro hl
      have hml : ¬ ∃ k, F.child? r k = some m := by
        rintro ⟨k, hk⟩
        exact (h.slot hr hk).2.1 hl
      refine ⟨⟨Or.inl hl, fun e => hdl (e ▸ hl)⟩, fun hm => hml ?_⟩
      obtain ⟨k, -, -, hk⟩ := (mem_nodesIn_takenBy h hr hc).mp hm
      exact ⟨k, hk⟩
    · rintro ⟨⟨hl | ⟨k, hk, hkm⟩, hmd⟩, hm⟩
      · exact hl
      · rcases (hkeys k).mp hk with rfl | ⟨v, hv⟩
        · exact absurd (Option.some.inj (hkm.symm.trans hc)) hmd
        · have hmem := (mem_takenBy h hr hc).mp hv
          exact absurd ((mem_nodesIn_takenBy h hr hc).mpr ⟨k, hmem.1, hmem.2.1, hkm⟩) hm

/-- What stands goes on standing. -/
theorem Stands.release {r' : Node τ} (hr' : F.Stands loose r') : (F.release S c d).Stands loose r' := by
  refine ⟨(knows_release h hr hc r').trans hr'.known, hr'.fixed, ?_⟩
  rw [owner?_release h hr hc, if_neg (root_notMem_takenBy h hr hc hr'.root)]
  split
  · rfl
  · exact hr'.root

theorem stands_released : (F.release S c d).Stands loose d := by
  obtain ⟨hdk, hdl, -⟩ := h.slot hr hc
  refine ⟨(knows_release h hr hc d).trans hdk, hdl, ?_⟩
  rw [owner?_release h hr hc, if_neg (notMem_nodesIn_takenBy h hr hc), if_pos rfl]

end Release

/-! ## A slot that is emptied -/

theorem evict_of_some {n d : Node τ} {c : κ} (hc : F.child? n c = some d) :
    F.evict S n c = F.release S c d := by
  rw [evict, hc]

theorem evict_of_none {n : Node τ} {c : κ} (hc : F.child? n c = none) : F.evict S n c = F := by
  rw [evict, hc]

theorem Sound.evict (h : Sound S loose F) (hr : F.Stands loose r) (c : κ) :
    Sound S loose (F.evict S r c) := by
  cases hc : F.child? r c with
  | none => rwa [evict_of_none hc]
  | some d =>
      rw [evict_of_some hc]
      exact Sound.release h hr hc

theorem Stands.evict (h : Sound S loose F) (hr : F.Stands loose r) (c : κ) {r' : Node τ}
    (hr' : F.Stands loose r') : (F.evict S r c).Stands loose r' := by
  cases hc : F.child? r c with
  | none => rwa [evict_of_none hc]
  | some d =>
      rw [evict_of_some hc]
      exact Stands.release h hr hc hr'

theorem knows_evict (h : Sound S loose F) (hr : F.Stands loose r) (c : κ) (m : Node τ) :
    (F.evict S r c).knows m = F.knows m := by
  cases hc : F.child? r c with
  | none => rw [evict_of_none hc]
  | some d =>
      rw [evict_of_some hc]
      exact knows_release h hr hc m

theorem child?_evict (h : Sound S loose F) (hr : F.Stands loose r) (c : κ) :
    (F.evict S r c).child? r c = none := by
  cases hc : F.child? r c with
  | none => rw [evict_of_none hc, hc]
  | some d => rw [evict_of_some hc, child?_eq, explicit?_release_root h hr hc, if_pos (Or.inl rfl)]; rfl

end Forest

end LayeredConfig
