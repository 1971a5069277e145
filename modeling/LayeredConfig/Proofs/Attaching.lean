import LayeredConfig.Proofs.Session

/-!
# When an attached node arrives

A node that is attached brings its slots one by one, and each of them first releases whatever node is in that
slot of the tree already. What is released takes along all that belongs to its type, and that may be something
that was brought a moment before: a slot of the attached node, or the attached node itself. What is lost in
this way does not come back. So a node *arrives*, with all that it stored, exactly when nothing it brings is
disturbed by a later slot; `Schema.undisturbed` decides this on the two stores, before anything is done.
-/

namespace LayeredConfig

variable {τ κ : Type} [DecidableEq τ] [DecidableEq κ]

namespace Schema

variable (S : Schema τ κ)

def occupant? (s : Store κ (Value τ)) (k : κ) : Option (Node τ) := (s.get? k).bind Value.node?

/-- What is left of a store when the slot `k` is emptied. -/
def vacated (s : Store κ (Value τ)) (k : κ) : Store κ (Value τ) :=
  match occupant? s k with
  | none => s
  | some d => S.remainder s k d.type

/-- Whether the node that leaves the slot `k` takes the key `b` along. -/
def displaces (s : Store κ (Value τ)) (k b : κ) : Bool :=
  match occupant? s k with
  | none => false
  | some d => S.belongs d.type b

/-- Whether some slots can come into a tree, one after the other, without a loss of what is brought. `s` is
what the tree stores apart from the slots that were brought before. -/
def undisturbed (s : Store κ (Value τ)) (brought : List κ) : List κ → Bool
  | [] => true
  | k :: ks =>
    !brought.contains k && brought.all (fun b => !S.displaces s k b) &&
      undisturbed (S.vacated s k) (k :: brought) ks

variable {S}

omit [DecidableEq τ] in
theorem get?_vacated {s : Store κ (Value τ)} {k b : κ} (hb : b ≠ k) :
    (S.vacated s k).get? b = if S.displaces s k b = true then none else s.get? b := by
  rw [vacated, displaces]
  cases occupant? s k with
  | none => rfl
  | some d => simp only [get?_remainder, hb, false_or]

omit [DecidableEq τ] in
theorem displaces_congr {s s' : Store κ (Value τ)} {k : κ} (h : occupant? s k = occupant? s' k) (b : κ) :
    S.displaces s k b = S.displaces s' k b := by
  rw [displaces, displaces, h]

omit [DecidableEq τ] in
theorem occupant?_vacated {s : Store κ (Value τ)} {k b : κ} (hb : b ≠ k) :
    occupant? (S.vacated s k) b = if S.displaces s k b = true then none else occupant? s b := by
  rw [occupant?, get?_vacated hb]
  split <;> rfl

end Schema

namespace Forest

open Schema

variable {S : Schema τ κ} {loose : Node τ → Prop} {F G : Forest τ κ} {a n r : Node τ} {c : κ}

theorem child?_eq_occupant (F : Forest τ κ) (n : Node τ) (c : κ) :
    F.child? n c = occupant? (F.storeOf n) c := rfl

/-! ## One slot comes over -/

/-- What a root stores after a slot is emptied. -/
theorem storeOf_evict (h : Sound S loose F) (hr : F.Stands loose r) (c : κ) :
    (F.evict S r c).storeOf r = S.vacated (F.storeOf r) c := by
  rw [vacated, ← child?_eq_occupant]
  cases hc : F.child? r c with
  | none => rw [evict_of_none hc]
  | some d =>
      rw [evict_of_some hc, storeOf_release_root h hr hc]

namespace Grafting

variable {es : List (κ × Value τ)} {k : κ} {m : Node τ}

/-- What is in the slots of the root after one slot came over. -/
theorem child?_step (h : Grafting S r ((k, .node m) :: es) F) (b : κ) :
    (graftSlot S r F (k, .node m)).child? r b =
      if b = k then some m
      else if S.displaces (F.storeOf r) k b = true then none else F.child? r b := by
  rw [graftSlot, receive_node, child?_eq, explicit?_settle, if_pos (Or.inr rfl)]
  by_cases hb : b = k
  · rw [if_pos hb, if_pos hb]
    rfl
  · rw [if_neg hb, if_neg hb]
    show (F.evict S r k).child? r b = _
    rw [child?_eq_occupant, storeOf_evict h.sound h.stands, occupant?_vacated hb]
    rfl

/-- What is in no slot that is still to come over does not come into the tree any more. -/
theorem child?_of_run (h : Grafting S r es F) {x : Node τ} (hx : x ∉ nodesIn es) {b : κ}
    (hb : (es.foldl (graftSlot S r) F).child? r b = some x) : F.child? r b = some x := by
  induction es generalizing F with
  | nil => exact hb
  | cons e es ih =>
      obtain ⟨k, v⟩ := e
      obtain ⟨m, he, -⟩ := h.slot _ (List.mem_cons_self ..)
      obtain rfl : v = .node m := he
      rw [nodesIn_cons_node, List.mem_cons, not_or] at hx
      have hstep := ih h.step hx.2 hb
      rw [h.child?_step] at hstep
      split at hstep
      · exact absurd (Option.some.inj hstep).symm hx.1
      · split at hstep
        · cases hstep
        · exact hstep

/-- Everything that was brought is in its slot after one more slot came over, exactly when that slot is none
of those that were brought, and its old node takes none of them along. -/
theorem brought_step_iff (h : Grafting S r ((k, .node m) :: es) F) {brought : List (κ × Node τ)}
    (hbrought : ∀ b ∈ brought, F.child? r b.1 = some b.2) :
    (∀ b ∈ (k, m) :: brought, (graftSlot S r F (k, .node m)).child? r b.1 = some b.2) ↔
      k ∉ brought.map Prod.fst ∧ ∀ b ∈ brought, S.displaces (F.storeOf r) k b.1 = false := by
  constructor
  · intro hin
    have hne : ∀ b ∈ brought, b.1 ≠ k := by
      intro b hb e
      have hb' := hin b (List.mem_cons_of_mem _ hb)
      rw [h.child?_step, if_pos e] at hb'
      -- What was brought is fixed, and the node that comes now is loose.
      have hfixed := (h.sound.slot h.stands (hbrought b hb)).2.1
      exact hfixed (Option.some.inj hb' ▸ List.mem_cons_self ..)
    refine ⟨fun hk => ?_, fun b hb => ?_⟩
    · obtain ⟨b, hb, e⟩ := List.mem_map.mp hk
      exact hne b hb e
    · have hb' := hin b (List.mem_cons_of_mem _ hb)
      rw [h.child?_step, if_neg (hne b hb)] at hb'
      split at hb'
      · cases hb'
      · next hno => exact Bool.eq_false_iff.mpr hno
  · rintro ⟨hk, hno⟩ b hb
    rw [h.child?_step]
    rcases List.mem_cons.mp hb with rfl | hb
    · rw [if_pos rfl]
    · have hne : b.1 ≠ k := fun e => hk (e ▸ List.mem_map_of_mem hb)
      rw [if_neg hne, if_neg (Bool.eq_false_iff.mp (hno b hb))]
      exact hbrought b hb

/-- The slot that comes now counts as brought from here on. -/
theorem all_cons_iff {brought : List (κ × Node τ)} :
    ((∀ b ∈ brought, G.child? r b.1 = some b.2) ∧
        ∀ k' m', (k', Value.node m') ∈ (k, Value.node m) :: es → G.child? r k' = some m') ↔
      (∀ b ∈ (k, m) :: brought, G.child? r b.1 = some b.2) ∧
        ∀ k' m', (k', Value.node m') ∈ es → G.child? r k' = some m' := by
  simp only [List.mem_cons, forall_eq_or_imp, Prod.mk.injEq, Value.node.injEq]
  constructor
  · rintro ⟨hin, hto⟩
    exact ⟨⟨hto k m (Or.inl ⟨rfl, rfl⟩), hin⟩, fun k' m' hm' => hto k' m' (Or.inr hm')⟩
  · rintro ⟨⟨hk, hin⟩, hto⟩
    refine ⟨hin, ?_⟩
    rintro k' m' (⟨rfl, rfl⟩ | hm')
    · exact hk
    · exact hto k' m' hm'

/-- **Everything that was brought and everything that is to come is in its slot in the end, exactly when
nothing is disturbed.** -/
theorem all_arrive_iff (h : Grafting S r es F) {brought : List (κ × Node τ)}
    (hbrought : ∀ b ∈ brought, F.child? r b.1 = some b.2) {s : Store κ (Value τ)}
    (hs : ∀ b, b ∉ brought.map Prod.fst → occupant? s b = F.child? r b) :
    ((∀ b ∈ brought, (es.foldl (graftSlot S r) F).child? r b.1 = some b.2) ∧
      ∀ k m, (k, Value.node m) ∈ es → (es.foldl (graftSlot S r) F).child? r k = some m) ↔
      S.undisturbed s (brought.map Prod.fst) (es.map Prod.fst) = true := by
  induction es generalizing F brought s with
  | nil =>
      constructor
      · exact fun _ => rfl
      · exact fun _ => ⟨hbrought, fun k m hm => absurd hm List.not_mem_nil⟩
  | cons e es ih =>
      obtain ⟨k, v⟩ := e
      obtain ⟨m, he, -⟩ := h.slot _ (List.mem_cons_self ..)
      obtain rfl : v = .node m := he
      have hstep := h.brought_step_iff hbrought
      rw [List.foldl_cons, all_cons_iff, List.map_cons, undisturbed, Bool.and_eq_true, Bool.and_eq_true,
        Bool.not_eq_true', List.contains_eq_mem, decide_eq_false_iff_not, List.all_eq_true]
      by_cases hkeep : k ∉ brought.map Prod.fst ∧ ∀ b ∈ brought, S.displaces (F.storeOf r) k b.1 = false
      · have hdisplaces : ∀ b, S.displaces s k b = S.displaces (F.storeOf r) k b :=
          displaces_congr (hs k hkeep.1)
        have hrest := ih h.step (hstep.mpr hkeep) (s := S.vacated s k) (by
          intro b hb
          rw [List.map_cons, List.mem_cons, not_or] at hb
          rw [h.child?_step, if_neg hb.1, occupant?_vacated hb.1, hdisplaces, hs b hb.2])
        rw [hrest]
        constructor
        · intro hun
          refine ⟨⟨hkeep.1, fun b hb => ?_⟩, hun⟩
          obtain ⟨b', hb', rfl⟩ := List.mem_map.mp hb
          rw [hdisplaces, hkeep.2 b' hb']
          rfl
        · exact fun hun => hun.2
      · -- Something that was brought is lost in this step, and does not come back.
        constructor
        · rintro ⟨hin, -⟩
          refine absurd (hstep.mp fun b hb => h.step.child?_of_run ?_ (hin b hb)) hkeep
          rcases List.mem_cons.mp hb with rfl | hb
          · exact (List.nodup_cons.mp (nodesIn_cons_node k m es ▸ h.nodup_nodes)).1
          · have hfixed := (h.sound.slot h.stands (hbrought b hb)).2.1
            exact fun hm => hfixed (List.mem_cons_of_mem _ hm)
        · rintro ⟨⟨hk, hno⟩, -⟩
          refine absurd ⟨hk, fun b hb => ?_⟩ hkeep
          have hb' := hno b.1 (List.mem_map_of_mem hb)
          rw [displaces_congr (hs k hk), Bool.not_eq_true'] at hb'
          exact hb'

end Grafting

/-! ## The leaves come over -/

theorem child?_receiveLeaves (h : Coherent S G) {es : List (κ × Value τ)}
    (hes : ∀ e ∈ es, e.2.node? = none ∧ S.slotType? e.1 = none) (k : κ) :
    (es.foldl (receive r) G).child? r k = G.child? r k := by
  induction es generalizing G with
  | nil => rfl
  | cons e es ih =>
      obtain ⟨hv, hc⟩ := hes e (List.mem_cons_self ..)
      rw [List.foldl_cons, receive_leaf r G hv,
        ih (h.put_leaf r hc hv) fun e' he' => hes e' (List.mem_cons_of_mem _ he'), child?_eq, explicit?_put]
      by_cases hk : k = e.1
      · rw [if_pos ⟨rfl, hk⟩, hk, h.child?_leaf hc]
        exact hv
      · rw [if_neg fun hand => hk hand.2]
        rfl

theorem cell_receiveLeaves {es : List (κ × Value τ)} (hes : nodesIn es = []) (x : Node τ) :
    (es.foldl (receive r) G).cell x = G.cell x := by
  have hr : r ∉ nodesIn es := hes ▸ List.not_mem_nil
  rw [cell_receiveAll hr, hes, if_neg List.not_mem_nil]

theorem knows_receiveLeaves {es : List (κ × Value τ)} (hes : nodesIn es = []) (x : Node τ) :
    (es.foldl (receive r) G).knows x = G.knows x := by
  rw [Bool.eq_iff_iff, knows_receiveAll, hes]
  simp

/-- All of a tree read the leaves that came over, and nobody else does. -/
theorem explicit?_foldl_receiveLeaves {es : List (κ × Value τ)} (hes : nodesIn es = []) (x : Node τ) (k : κ) :
    (es.foldl (receive r) G).explicit? x k =
      if G.place x = G.place r then ((G.storeOf r).insertAll es).get? k else G.explicit? x k := by
  have hr : r ∉ nodesIn es := hes ▸ List.not_mem_nil
  rw [explicit?_eq, place, cell_receiveLeaves hes, storeAt_receiveAll hr]
  exact apply_ite (Store.get? · k) ..

/-- A leaf that comes over is stored, whatever was there. -/
theorem explicit?_receiveLeaves {es : List (κ × Value τ)} (hk : (es.map Prod.fst).Nodup)
    (hes : nodesIn es = []) {e : κ × Value τ} (he : e ∈ es) :
    (es.foldl (receive r) G).explicit? r e.1 = some e.2 := by
  rw [explicit?_foldl_receiveLeaves hes, if_pos rfl, Store.get?_insertAll_of_mem _ hk he]

/-! ## Arrival -/

/-- The node `n` is in the slot `c` of the root `r` of `G`, attached to `r`, and all that it stored in `F` is
stored there: its leaves, and the nodes in its slots, which `r` owns now. -/
structure Arrives (F G : Forest τ κ) (r : Node τ) (c : κ) (n : Node τ) : Prop where
  occupant : G.child? r c = some n
  owner : G.owner? n = some r
  store : G.place n = G.place r
  stored : ∀ {k v}, F.explicit? n k = some v → G.explicit? r k = some v
  nested : ∀ {k m}, F.child? n k = some m → G.child? r k = some m ∧ G.owner? m = some r

/-- In a coherent forest a node has arrived when it is in its slot, and with it all that it stored. -/
theorem Arrives.of_stored (h : Coherent S G) (hr : G.IsTop r) (hn : G.child? r c = some n)
    (hstored : ∀ {k v}, F.explicit? n k = some v → G.explicit? r k = some v) : Arrives F G r c n := by
  obtain ⟨hk, -, ho⟩ := h.slot hr hn
  refine ⟨hn, ho, h.mem_place hk (fun hf => hf) ho, hstored, fun {k m} hm => ?_⟩
  have hm' : G.child? r k = some m := child?_eq_some.mpr (hstored (child?_eq_some.mp hm))
  exact ⟨hm', (h.slot hr hm').2.2⟩

theorem arrives_graft_iff (h : Coherent S F) (hr : F.IsTop r) (hn : F.IsTop n) (hrn : r ≠ n)
    (hc : F.child? r c = none) (ht : S.slotType? c = some n.type) :
    Arrives F (F.graft S r c n) r c n ↔
      S.undisturbed (F.storeOf r) [c] ((F.slotsIn n).map Prod.fst) = true := by
  have hstart := Grafting.start h hr hn hrn hc ht
  have hrun := hstart.run
  have hsettled : ∀ k, (F.settle r c n).child? r k = if k = c then some n else F.child? r k := by
    intro k
    rw [child?_eq, explicit?_settle, if_pos (Or.inr rfl)]
    split <;> rfl
  have hchild : ∀ k, (F.graft S r c n).child? r k =
      ((F.slotsIn n).foldl (graftSlot S r) (F.settle r c n)).child? r k := by
    intro k
    rw [graft_eq, child?_receiveLeaves hrun.coherent (leaves_typed h n)]
  have hbrought : ∀ b ∈ [(c, n)], (F.settle r c n).child? r b.1 = some b.2 := by
    intro b hb
    rw [List.mem_singleton.mp hb, hsettled, if_pos rfl]
  have hrest : ∀ b, b ∉ [(c, n)].map Prod.fst → occupant? (F.storeOf r) b = (F.settle r c n).child? r b := by
    intro b hb
    rw [List.map_cons, List.map_nil, List.mem_singleton] at hb
    rw [hsettled, if_neg hb]
    rfl
  have hiff := hstart.all_arrive_iff hbrought hrest
  simp only [List.mem_singleton, forall_eq, ← hchild, List.map_cons, List.map_nil] at hiff
  rw [← hiff]
  constructor
  · intro harr
    refine ⟨harr.occupant, fun k m hm => ?_⟩
    obtain ⟨m', he, hm'⟩ := mem_slotsIn.mp hm
    cases he
    exact (harr.nested hm').1
  · rintro ⟨hin, hto⟩
    refine Arrives.of_stored (h.graft hr hn hrn hc ht) (isTop_graft h hr hn hrn hc ht) hin
      fun {k v} hv => ?_
    cases hnode : v.node? with
    | some m =>
        obtain rfl := node?_eq_some.mp hnode
        have hm := child?_eq_some.mpr hv
        exact child?_eq_some.mp (hto k m (mem_slotsIn.mpr ⟨m, rfl, hm⟩))
    | none =>
        rw [graft_eq]
        exact explicit?_receiveLeaves (nodup_keys_leavesIn F n) (nodesIn_leavesIn F n)
          (mem_leavesIn.mpr ⟨hnode, hv⟩)

theorem Arrives.of_storeOf_eq {F' : Forest τ κ} (h : Arrives F G r c n) (hs : F'.storeOf n = F.storeOf n) :
    Arrives F' G r c n := by
  have he : ∀ k, F'.explicit? n k = F.explicit? n k := fun k => by rw [explicit?, explicit?, hs]
  refine ⟨h.occupant, h.owner, h.store, fun {k v} hv => h.stored (he k ▸ hv), fun {k m} hm => h.nested ?_⟩
  rwa [child?_eq, ← he]

theorem Sound.arrives_self (h : Coherent S F) (hr : F.IsTop r) (hn : F.child? r c = some n) :
    Arrives F F r c n := by
  refine Arrives.of_stored h hr hn fun {k v} hv => ?_
  obtain ⟨hk, -, ho⟩ := h.slot hr hn
  rw [h.explicit?_rootOf hk, rootOf, ho] at hv
  exact hv

/-- **When a set node arrives**: it was there before, or nothing is disturbed. -/
theorem arrives_set_iff (h : Coherent S F) (ha : F.knows a = true) (hn : F.knows n = true)
    (hset : F.set S a c (.node n) = (.ok (), G)) :
    Arrives F G (F.rootOf a) c n ↔
      F.child? a c = some n ∨
        S.undisturbed (S.vacated (F.storeOf a) c) [c] ((F.slotsIn n).map Prod.fst) = true := by
  have hr := h.isTop_rootOf ha
  cases set_cases S F a c (.node n) with
  | frozen _ he =>
      rw [he] at hset
      cases hset
  | refused _ _ he =>
      rw [he] at hset
      cases hset
  | leaf _ _ hv _ => cases hv
  | same d hd _ _ hc he =>
      cases hd
      rw [he] at hset
      cases hset
      have hself := h.arrives_self hr (h.child?_rootOf ha c ▸ hc)
      exact ⟨fun _ => Or.inl hc, fun _ => hself⟩
  | attached d hd _ ht hc hatt he =>
      cases hd
      rw [he, h.evict_rootOf ha] at hset
      cases hset
      have hntop : F.IsTop n := ⟨hn, fun hf => hf, hatt.root⟩
      have hrn : F.rootOf a ≠ n := fun e => hatt.ne_root e.symm
      have hplace : F.place (F.rootOf a) ≠ F.place n := fun e => hrn (h.place_inj hr hntop e)
      -- The node that is to come is not touched when its slot is emptied.
      have hstore : (F.evict S (F.rootOf a) c).storeOf n = F.storeOf n :=
        ((Keeps.evict h hr hplace (h.place_lt hn) c).tree h hntop).1
      have hslots : (F.evict S (F.rootOf a) c).slotsIn n = F.slotsIn n := by rw [slotsIn, slotsIn, hstore]
      have hroot : F.storeOf a = F.storeOf (F.rootOf a) := by rw [storeOf, storeOf, h.place_rootOf ha]
      have hiff := arrives_graft_iff (h.evict hr c) (Stands.evict h hr c hr) (Stands.evict h hr c hntop) hrn
        (child?_evict h hr c) ht
      rw [hslots, storeOf_evict h hr, ← hroot] at hiff
      constructor
      · exact fun harr => Or.inr (hiff.mp (harr.of_storeOf_eq hstore))
      · rintro (hc' | hun)
        · exact absurd hc' hc
        · exact (hiff.mpr hun).of_storeOf_eq hstore.symm

end Forest

namespace Session

open Forest Schema

variable {S : Schema τ κ} {W : Session τ κ} {a n : Node τ} {c : κ} {G : Forest τ κ}

/-- **A node that is set without complaint arrives exactly when it was in the slot before, or none of the
slots that it brings disturbs another.** -/
theorem arrives_iff_undisturbed (h : Reachable S W) (ha : W.Holds a) (hn : W.Holds n)
    (hset : W.forest.set S a c (.node n) = (.ok (), G)) :
    Arrives W.forest G (W.forest.rootOf a) c n ↔
      W.forest.child? a c = some n ∨
        S.undisturbed (S.vacated (W.forest.storeOf a) c) [c] ((W.forest.slotsIn n).map Prod.fst) = true :=
  arrives_set_iff h.orderly.coherent ha.1 hn.1 hset

/-- The child of the node that is set comes along, and nothing is in its way. -/
theorem arrives_iff_undisturbed_anchored :
    (Reachable catalog furnished ∧ furnished.Holds ⟨1, .holder⟩ ∧ furnished.Holds ⟨3, .testParent⟩ ∧
      furnished.forest.set catalog ⟨1, .holder⟩ (.specimen .anchor) (.node ⟨3, .testParent⟩) =
        (.ok (), anchored.forest)) ∧
      (furnished.forest.slotsIn ⟨3, .testParent⟩).map Prod.fst = [.specimen .leaf] ∧
      Arrives furnished.forest anchored.forest (furnished.forest.rootOf ⟨1, .holder⟩) (.specimen .anchor)
        ⟨3, .testParent⟩ := by
  have hset : furnished.forest.set catalog ⟨1, .holder⟩ (.specimen .anchor) (.node ⟨3, .testParent⟩) =
      (.ok (), anchored.forest) := rfl
  have hholds : furnished.Holds ⟨1, .holder⟩ ∧ furnished.Holds ⟨3, .testParent⟩ := by decide
  have hiff := arrives_iff_undisturbed reachable_furnished hholds.1 hholds.2 hset
  exact ⟨⟨reachable_furnished, hholds.1, hholds.2, hset⟩, by decide, hiff.mpr (Or.inr (by decide))⟩

/-! ## A node that does not arrive -/

/-- Two trees, each with a node in its right slot. -/
def crossing : Session NodeType Key :=
  ⟨[.bare .tree, .childOrNew ⟨1, .tree⟩ (.specimen .right), .bare .tree,
    .childOrNew ⟨3, .tree⟩ (.specimen .right)].foldl (Operation.run catalog) .empty, []⟩

theorem reachable_crossing : Reachable catalog crossing := by
  refine Reachable.run .refl ?_
  decide

/-- The second tree is set into the left slot of the first. It brings its right slot, whose old node is
released, and takes the left slot along with the tree that was just put there. -/
theorem not_arrives_crossing :
    Reachable catalog crossing ∧ crossing.Holds ⟨1, .tree⟩ ∧ crossing.Holds ⟨3, .tree⟩ ∧
      (crossing.forest.set catalog ⟨1, .tree⟩ (.specimen .left) (.node ⟨3, .tree⟩)).1 = .ok () ∧
      ¬ Arrives crossing.forest
        (crossing.forest.set catalog ⟨1, .tree⟩ (.specimen .left) (.node ⟨3, .tree⟩)).2 ⟨1, .tree⟩
        (.specimen .left) ⟨3, .tree⟩ := by
  have hok : (crossing.forest.set catalog ⟨1, .tree⟩ (.specimen .left) (.node ⟨3, .tree⟩)).1 = .ok () := rfl
  have hbelongs : catalog.belongs .tree (.specimen .left) = true := by
    rw [belongs, catalog.reaches_of_mem_declared (by decide)]
    rfl
  have hoccupant : occupant? (crossing.forest.storeOf ⟨1, .tree⟩) (.specimen .right) = some ⟨2, .tree⟩ := by
    decide
  refine ⟨reachable_crossing, by decide, by decide, hok, fun harr => ?_⟩
  have hiff := arrives_set_iff reachable_crossing.orderly.coherent (a := ⟨1, .tree⟩) (n := ⟨3, .tree⟩)
    (c := .specimen .left) (by decide) (by decide) (Prod.ext hok rfl)
  rcases hiff.mp harr with hin | hun
  · revert hin
    decide
  · have hslots : (crossing.forest.slotsIn ⟨3, .tree⟩).map Prod.fst = [.specimen .right] := by decide
    have hvacated : catalog.vacated (crossing.forest.storeOf ⟨1, .tree⟩) (.specimen .left) =
        crossing.forest.storeOf ⟨1, .tree⟩ := rfl
    rw [hslots, hvacated, undisturbed] at hun
    simp [displaces, hoccupant, hbelongs] at hun

end Session

end LayeredConfig
