import LayeredConfig.Proofs.Mutating

/-!
# Mutators that share a bag

A mutator is a name and a handle on a bag, and to clone it copies the handle. A clone that is extended writes into
the one bag that all have; there is no other mutator than the first one, whatever is done to clones of it and to
clones of the results (`Mutator.Extending`).

So the first mutator holds what it held and the overrides that its clones have been granted
(`Mutator.shared_of_extending`). The clones come into each other's way and into its own: what one of them has been
granted every other is refused. A call that is refused leaves all as it was.
-/

namespace LayeredConfig

variable {τ κ : Type} [DecidableEq τ] [DecidableEq κ] {S : Schema τ κ} {b : Node τ}

/-! ## Bags stay roots

A bag is made as a root and cannot be attached. -/

namespace Forest

variable {F : Forest τ κ} {n : Node τ}

omit [DecidableEq κ] in
theorem IsTop.grows {G : Forest τ κ} (hb : F.IsTop b) (h : Grows F G) : G.IsTop b :=
  (hb.of_cell (h b hb.known).1 (h b hb.known).2).1

theorem IsTop.set_of_isBag (hb : F.IsTop b) (hbag : S.isBag b.type = true) (h : Coherent S F)
    (hn : F.knows n = true) (c : κ) {v : Value τ} (hv : ∀ d, v = .node d → F.knows d = true) :
    (F.set S n c v).2.IsTop b := by
  by_cases hroot : F.rootOf n = b
  · rw [← hroot]
    exact h.isTop_set hn hv
  · cases set_cases S F n c v with
    | frozen _ he => exact he ▸ hb
    | refused _ _ he => exact he ▸ hb
    | leaf _ _ _ he => exact he ▸ ⟨hb.known, hb.fixed, hb.root⟩
    | same _ _ _ _ _ he => exact he ▸ hb
    | attached d hd _ _ _ ha _ =>
        -- What is attached is a root of its own, and no bag.
        have hspared : ∀ d', v = .node d' → F.knows d' = true ∧ Spares F b d' := by
          intro d' hd'
          obtain rfl : d' = d := Value.node.inj (hd'.symm.trans hd)
          refine ⟨hv d' hd', Or.inr ?_⟩
          rw [rootOf, ha.root]
          rintro rfl
          exact Bool.false_ne_true (ha.not_bag.symm.trans hbag)
        exact ((Keeps.set h hb hn (Or.inr hroot) c hspared).isTop hb).1

theorem IsTop.detach (hb : F.IsTop b) (h : Coherent S F) (hn : F.knows n = true) (c : κ) :
    (F.detach S n c).2.IsTop b := by
  rcases detach_cases S F n c with ⟨-, he⟩ | ⟨-, he⟩ | ⟨-, -, he⟩ | ⟨d, -, hd, he⟩
  · exact he ▸ hb
  · exact he ▸ hb
  · exact he ▸ hb
  · rw [h.child?_rootOf hn] at hd
    exact he ▸ Stands.release h (h.isTop_rootOf hn) hd hb

theorem IsTop.clear (hb : F.IsTop b) (n : Node τ) (c : κ) : (F.clear S n c).2.IsTop b := by
  rcases clear_cases S F n c with ⟨-, he⟩ | ⟨-, he⟩ | ⟨-, -, he⟩
  · exact he ▸ hb
  · exact he ▸ hb
  · exact he ▸ ⟨hb.known, hb.fixed, hb.root⟩

theorem IsTop.freeze (hb : F.IsTop b) (n : Node τ) : (F.freeze S n).2.IsTop b := by
  rcases freeze_cases S F n with ⟨e, he⟩ | ⟨-, he⟩
  · exact he ▸ hb
  · exact he ▸ hb.markFrozen n

theorem IsTop.applyAll (hb : F.IsTop b) (h : Coherent S F) (hn : F.knows n = true) (sources : List (Node τ)) :
    (F.applyAll S n sources).2.IsTop b := by
  rcases applyAll_cases S F n sources with ⟨-, he⟩ | ⟨-, he⟩
  · exact he ▸ hb
  · rw [he]
    clear he
    induction sources generalizing F with
    | nil => exact hb
    | cons s sources ih =>
        obtain ⟨h', hn'⟩ := h.overlay hn s
        exact ih (hb.grows (Grows.overlay h hn s)) h' hn'

end Forest

open Forest

/-- **No operation attaches a bag.** -/
theorem Operation.isTop_of_isBag {F : Forest τ κ} (o : Operation τ κ) (h : Coherent S F)
    (ho : ∀ n ∈ o.operands, F.knows n = true) (hb : F.IsTop b) (hbag : S.isBag b.type = true) :
    (o.run S F).IsTop b := by
  cases o with
  | bare t => exact hb.grows (Grows.bare h t)
  | create t => exact hb.grows (Grows.create h t).1
  | child n c => exact hb
  | childOrNew n c => exact hb.grows (Grows.childOrNew h n c)
  | set n c v =>
      refine hb.set_of_isBag hbag h (ho n (List.mem_cons_self ..)) c ?_
      rintro d rfl
      exact ho d (List.mem_cons_of_mem _ (List.mem_singleton.mpr rfl))
  | clear n c => exact hb.clear n c
  | detach n c => exact hb.detach h (ho n (List.mem_cons_self ..)) c
  | freeze n => exact hb.freeze n
  | unfreezeCopy n => exact hb.grows (Grows.unfreezeCopy h n)
  | applyAll n sources => exact hb.applyAll h (ho n (List.mem_cons_self ..)) sources

namespace Session

variable {W W' : Session τ κ}

theorem Step.isTop_of_isBag (hs : Step S W W') (h : Orderly S W) (hb : W.forest.IsTop b)
    (hbag : S.isBag b.type = true) : W'.forest.IsTop b := by
  cases hs with
  | call o ho => exact o.isTop_of_isBag h.coherent (fun n hn => (ho n hn).1) hb hbag
  | begin t => exact hb.grows (Grows.create h.coherent t).1
  | extend hn step _ => exact hb.grows (Grows.draftStep h.coherent (h.draft _ hn).1.known step)
  | finish _ => exact hb
  | finishFrozen _ => exact hb.markFrozen _

/-- **A client that holds a bag that is a root holds it for good, and it stays a root.** -/
theorem Steps.holds_bag (hs : Steps S W W') (h : Orderly S W) (hb : W.forest.IsTop b)
    (hbag : S.isBag b.type = true) (hheld : W.Holds b) : W'.forest.IsTop b ∧ W'.Holds b := by
  induction hs with
  | refl => exact ⟨hb, hheld⟩
  | @tail V V' hs hstep ih =>
      obtain ⟨hb', hheld'⟩ := ih
      have hnext := hstep.isTop_of_isBag (hs.orderly h) hb' hbag
      refine ⟨hnext, hnext.known, fun hmem => hheld'.2 ?_⟩
      rw [hnext.rootOf_eq] at hmem
      rw [hb'.rootOf_eq]
      exact hstep.mem_drafts (hs.orderly h) hb'.known hmem

end Session

/-! ## Jobs -/

/-- Jobs are not attached to anything. -/
theorem Job.isTop {F : Forest NodeType Key} (h : Coherent catalog F) (j : Job) (hj : F.knows j.val = true) :
    F.IsTop j.val := by
  refine ⟨hj, fun hf => hf, ?_⟩
  cases ho : F.owner? j.val with
  | none => rfl
  | some o =>
      -- What is attached is in a slot, and no slot takes jobs.
      have hslots : ∀ c ∈ Key.slots, catalog.slotType? c ≠ some .job := by decide +kernel
      obtain ⟨c, hc⟩ := h.listed hj (fun hf => hf) ho
      have htype := h.typed (child?_eq_some.mp hc)
      rw [Value.node?, Option.map_some, j.property] at htype
      exact absurd htype.symm (hslots c (catalog.mem_slots_of_slotType htype.symm))

/-- Two jobs that are made of one: what the second has on top of the first one's layer lies on top of the first. -/
theorem Job.Overridden.above {F A B : Forest NodeType Key} {j i l : Job}
    {laid more : Key → Option (Value NodeType)} {name : String} (h : Overridden F j laid name A i)
    (h' : Overridden F j (fun k => (more k).or (laid k)) name B l) : Overridden A i more name B l where
  isTop := h'.isTop
  unfrozen := h'.unfrozen
  complete := h'.complete
  leaf := fun hk hs => by rw [h'.leaf hk hs, h.leaf hk hs, Option.or_assoc]
  mark := fun hk hs hid => (h'.mark hk hs hid).trans (h.mark hk hs hid).symm
  id := h'.id
  known := h'.known

namespace Mutator

open Session Job

variable {W W' J : Session NodeType Key} {F G : Forest NodeType Key} {m n : Mutator} {k : Key} {x : k.Content}

/-! ## The mutators of a client -/

/-- The mutators of a client: a new one, or one that is made of a job, in any session that comes of it. -/
inductive Owned : Session NodeType Key → Mutator → Prop where
  | new {W : Session NodeType Key} (h : JobReachable W) (id : String) :
    Owned ⟨(Mutator.new W.forest id).1, W.drafts⟩ (Mutator.new W.forest id).2
  | ofJob {W : Session NodeType Key} (h : JobReachable W) {j : Job} (hj : W.Holds j.val) :
    Owned ⟨(Mutator.ofJob W.forest j).1, W.drafts⟩ (Mutator.ofJob W.forest j).2
  | later {W W' : Session NodeType Key} {m : Mutator} (h : Owned W m)
    (hs : JobStepsAside (fun _ => False) W W') : Owned W' m

/-- What a mutator of a client is: a handle on a bag that is a root and that the client holds. -/
structure Handle (W : Session NodeType Key) (m : Mutator) : Prop where
  reachable : Reachable catalog W
  isTop : W.forest.IsTop m.overrides
  holds : W.Holds m.overrides
  isBag : m.overrides.type = .bag

theorem Handle.of_adds (h : Reachable catalog W)
    (hadds : Adds catalog W ⟨G, W.drafts⟩ [m.overrides]) (hbag : m.overrides.type = .bag) :
    Handle ⟨G, W.drafts⟩ m where
  reachable := hadds.reachable h
  isTop := (hadds.fresh _ (List.mem_singleton.mpr rfl)).2
  holds := (hadds.new_of_mem (List.mem_singleton.mpr rfl)).holds h.orderly rfl
  isBag := hbag

theorem Handle.later (h : Handle W m) (hs : Steps catalog W W') : Handle W' m := by
  have hbag : catalog.isBag m.overrides.type = true := by
    rw [h.isBag]
    rfl
  obtain ⟨htop, hheld⟩ := hs.holds_bag h.reachable.orderly h.isTop hbag h.holds
  exact ⟨h.reachable.trans hs, htop, hheld, h.isBag⟩

theorem Owned.handle (h : Owned W m) : Handle W m := by
  induction h with
  | new h id => exact Handle.of_adds h.reachable (Adds.bare h.reachable.orderly .bag) rfl
  | ofJob h hj => exact Handle.of_adds h.reachable (Adds.bag h.reachable.orderly _ _) rfl
  | later _ hs ih => exact ih.later (hs.steps ih.reachable.orderly)

/-! ## One more override -/

/-- Why an override is refused, if it is. -/
def refusal? (F : Forest NodeType Key) (m : Mutator) (k : Key) : Option JobFailure :=
  if catalog.isSticky k then some (.stickyOverride k)
  else if catalog.isSlot k then some (.notALeaf k)
  else if F.has m.overrides k then some (.duplicateOverride m.id k)
  else if F.isFrozen m.overrides then some (.node (.frozen (F.label catalog m.overrides)))
  else none

/-- **An override is refused, and nothing changes, or it is stored in the bag.** -/
theorem add_eq (F : Forest NodeType Key) (m : Mutator) (k : Key) (x : k.Content) :
    add F m k x =
      match refusal? F m k with
      | some e => (.error e, F)
      | none => (.ok m, F.put m.overrides k ((catalog.format k).write x)) := by
  unfold add refusal?
  cases catalog.isSticky k with
  | true => rfl
  | false =>
      cases hslot : catalog.isSlot k with
      | true => rfl
      | false =>
          cases F.has m.overrides k with
          | true => rfl
          | false =>
              cases hf : F.isFrozen m.overrides with
              | true =>
                  have hset : F.set catalog m.overrides k ((catalog.format k).write x) =
                      (.error (.frozen (F.label catalog m.overrides)), F) := by
                    simp only [Forest.set, requireUnfrozen, hf, if_true]
                  rw [hset]
                  rfl
              | false =>
                  rw [set_write hf (Schema.slotType?_eq_none hslot)]
                  rfl

theorem add_of_refused {e : JobFailure} (h : refusal? F m k = some e) (x : k.Content) :
    add F m k x = (.error e, F) := by
  rw [add_eq, h]

theorem add_of_granted (h : refusal? F m k = none) (x : k.Content) :
    add F m k x = (.ok m, F.put m.overrides k ((catalog.format k).write x)) := by
  rw [add_eq, h]

/-- What an override must be to be granted. -/
structure Free (F : Forest NodeType Key) (m : Mutator) (k : Key) : Prop where
  notSticky : catalog.isSticky k = false
  notSlot : catalog.isSlot k = false
  missing : F.has m.overrides k = false
  unfrozen : F.isFrozen m.overrides = false

theorem free_of_refusal?_eq_none (h : refusal? F m k = none) : Free F m k := by
  unfold refusal? at h
  split at h
  · cases h
  · next hs =>
    split at h
    · cases h
    · next hslot =>
      split at h
      · cases h
      · next hhas =>
        split at h
        · cases h
        · next hf =>
          simp only [Bool.not_eq_true] at hs hslot hhas hf
          exact ⟨hs, hslot, hhas, hf⟩

/-- To store what is free leaves the client with the mutator. -/
theorem Handle.put (h : Handle W m) (hk : Free W.forest m k) (x : k.Content) :
    Handle ⟨W.forest.put m.overrides k ((catalog.format k).write x), W.drafts⟩ m := by
  have hrun : Steps catalog W
      ⟨(Operation.set m.overrides k ((catalog.format k).write x)).run catalog W.forest, W.drafts⟩ := by
    refine Steps.refl.call (.set m.overrides k _) fun n hn => ?_
    rw [Operation.operands, Schema.node?_write (Schema.slotType?_eq_none hk.notSlot)] at hn
    rw [List.mem_singleton.mp hn]
    exact h.holds
  rw [Operation.run, set_write hk.unfrozen (Schema.slotType?_eq_none hk.notSlot)] at hrun
  exact h.later hrun

/-- A refused override changes nothing. -/
theorem eq_of_add_error {e : JobFailure} (h : add F m k x = (.error e, G)) : G = F := by
  rw [add_eq] at h
  split at h
  · cases h
    rfl
  · cases h

/-- What is granted is stored in the bag, and the mutator that is answered has the same bag. -/
theorem of_add_ok (h : add F m k x = (.ok n, G)) :
    refusal? F m k = none ∧ n = m ∧ G = F.put m.overrides k ((catalog.format k).write x) := by
  rw [add_eq] at h
  split at h
  · cases h
  · next hnone =>
    cases h
    exact ⟨hnone, rfl, rfl⟩

/-! ## Clones in a row -/

/-- Some calls on clones of a mutator and on clones of what such calls answer, with the mutators that the client
has then, and the overrides that have been granted. -/
inductive Extending (F : Forest NodeType Key) (m : Mutator) :
    List Mutator → List (Key × Value NodeType) → Forest NodeType Key → Prop where
  | start : Extending F m [m] [] F
  | refused {held : List Mutator} {es : List (Key × Value NodeType)} {G H : Forest NodeType Key} {n : Mutator}
      {k : Key} {x : k.Content} {e : JobFailure} (h : Extending F m held es G) (hn : n ∈ held)
      (he : add G n k x = (.error e, H)) : Extending F m held es H
  | granted {held : List Mutator} {es : List (Key × Value NodeType)} {G H : Forest NodeType Key} {n l : Mutator}
      {k : Key} {x : k.Content} (h : Extending F m held es G) (hn : n ∈ held)
      (he : add G n k x = (.ok l, H)) :
      Extending F m (l :: held) (es ++ [(k, (catalog.format k).write x)]) H

variable {held : List Mutator} {es : List (Key × Value NodeType)}

theorem mem_keys_iff {k : Key} : k ∈ es.map Prod.fst ↔ (es.lookup k).isSome = true := by
  rw [List.lookup_isSome_iff, List.mem_map]
  constructor
  · rintro ⟨e, he, rfl⟩
    exact ⟨e, he, beq_self_eq_true _⟩
  · rintro ⟨e, he, hk⟩
    exact ⟨e, he, (eq_of_beq hk).symm⟩

/-- What has come of the bag of the mutator `m` after the overrides `es` have been granted. -/
structure Grown (W : Session NodeType Key) (m : Mutator) (held : List Mutator) (es : List (Key × Value NodeType))
    (G : Forest NodeType Key) : Prop where
  /-- To clone a mutator and to extend a clone makes no other mutator. -/
  clones : ∀ n ∈ held, n = m
  handle : Handle ⟨G, W.drafts⟩ m
  free : ∀ e ∈ es, Free W.forest m e.1
  distinct : (es.map Prod.fst).Nodup
  overrides : ∀ c, G.explicit? m.overrides c = (es.lookup c).or (W.forest.explicit? m.overrides c)
  nothing : es = [] → G = W.forest
  frozen : G.isFrozen m.overrides = W.forest.isFrozen m.overrides
  same : ∀ {n}, W.forest.knows n = true → W.forest.rootOf n ≠ m.overrides → Same W.forest G n

namespace Grown

theorem start (h : Handle W m) : Grown W m [m] [] W.forest where
  clones := fun _ hn => List.mem_singleton.mp hn
  handle := h
  free := fun _ he => nomatch he
  distinct := List.nodup_nil
  overrides := fun _ => rfl
  nothing := fun _ => rfl
  frozen := rfl
  same := fun hn _ => Same.refl hn

theorem has_eq (h : Grown W m held es G) (k : Key) :
    G.has m.overrides k = ((es.lookup k).isSome || W.forest.has m.overrides k) := by
  have hread := congrArg Option.isSome (h.overrides k)
  rwa [Option.isSome_or] at hread

/-- **What has been granted is refused from then on, and nothing else is.** -/
theorem refusal?_eq (h : Grown W m held es G) (k : Key) :
    refusal? G m k =
      if k ∈ es.map Prod.fst then some (.duplicateOverride m.id k) else refusal? W.forest m k := by
  by_cases hk : k ∈ es.map Prod.fst
  · obtain ⟨e, he, rfl⟩ := List.mem_map.mp hk
    have hfree := h.free e he
    rw [if_pos hk, refusal?, hfree.notSticky, hfree.notSlot, h.has_eq, mem_keys_iff.mp hk]
    rfl
  · have hhas : G.has m.overrides k = W.forest.has m.overrides k := by
      rw [h.has_eq, Bool.eq_false_iff.mpr (fun hsome => hk (mem_keys_iff.mpr hsome)), Bool.false_or]
    rw [if_neg hk]
    cases es with
    | nil => rw [h.nothing rfl]
    | cons e es =>
        -- The bag was not frozen when the first override was granted, so that its label does not matter.
        have hf := (h.free e (List.mem_cons_self ..)).unfrozen
        rw [refusal?, refusal?, hhas, h.frozen, hf]
        rfl

/-- **One more override.** -/
theorem granted (h : Grown W m held es G) (hk : refusal? G m k = none) (x : k.Content) :
    Grown W m (m :: held) (es ++ [(k, (catalog.format k).write x)])
      (G.put m.overrides k ((catalog.format k).write x)) := by
  have hnew : k ∉ es.map Prod.fst := by
    intro hmem
    rw [h.refusal?_eq, if_pos hmem] at hk
    cases hk
  have hfree : Free W.forest m k := by
    rw [h.refusal?_eq, if_neg hnew] at hk
    exact free_of_refusal?_eq_none hk
  constructor
  case clones =>
    rintro n (_ | ⟨_, hn⟩)
    · rfl
    · exact h.clones n hn
  case handle => exact h.handle.put (free_of_refusal?_eq_none hk) x
  case free =>
    intro e he
    rcases List.mem_append.mp he with he | he
    · exact h.free e he
    · rw [List.mem_singleton.mp he]
      exact hfree
  case distinct =>
    rw [List.map_append, List.nodup_append]
    refine ⟨h.distinct, List.pairwise_singleton _ _, ?_⟩
    rintro a ha b hb rfl
    rw [List.mem_singleton.mp hb] at ha
    exact hnew ha
  case overrides =>
    intro c
    rw [explicit?_put, List.lookup_append, Store.lookup_cons_eq, h.overrides]
    by_cases hc : c = k
    · have hlookup : es.lookup k = none := by
        rw [← Option.not_isSome_iff_eq_none]
        exact fun hsome => hnew (mem_keys_iff.mpr hsome)
      rw [if_pos ⟨rfl, hc⟩, if_pos hc, hc, hlookup]
      rfl
    · rw [if_neg fun hand => hc hand.2, if_neg hc, List.lookup_nil, Option.or_none]
  case nothing => exact fun hnil => absurd hnil (List.append_ne_nil_of_right_ne_nil _ (List.cons_ne_nil _ _))
  case frozen => exact h.frozen
  case same =>
    intro n hn hroot
    have hsame := h.same hn hroot
    have hplace := h.handle.reachable.orderly.coherent.place_ne h.handle.isTop hsame.known (hsame.root ▸ hroot)
    refine hsame.trans ⟨hsame.known, rfl, rfl, rfl, ?_⟩
    rw [storeOf, storeAt_put]
    exact if_neg hplace

end Grown

theorem grown_of_extending (h : Handle W m) (hs : Extending W.forest m held es G) : Grown W m held es G := by
  induction hs with
  | start => exact Grown.start h
  | refused _ hn he ih =>
      rw [eq_of_add_error he]
      exact ih
  | granted _ hn he ih =>
      obtain ⟨hk, rfl, rfl⟩ := of_add_ok he
      obtain rfl := ih.clones _ hn
      exact ih.granted hk _

/-! ## What clones do to the first mutator -/

/-- What a mutator is after its clones have been extended. -/
structure Shared (W : Session NodeType Key) (m : Mutator) (held : List Mutator) (es : List (Key × Value NodeType))
    (G : Forest NodeType Key) : Prop extends Grown W m held es G where
  /-- The mutator makes of a job what it made before, with what its clones have been granted on top. -/
  applies : ∀ {j : Job}, W.Holds j.val →
    Overridden (apply W.forest m j).1 (apply W.forest m j).2 (fun c => es.lookup c) (chainName W.forest j [m])
      (apply G m j).1 (apply G m j).2
  /-- What its clones have been granted it is refused, and for the rest it is answered as before. -/
  later : ∀ (k : Key) (x : k.Content),
    (add G m k x).1 =
      if k ∈ es.map Prod.fst then .error (.duplicateOverride m.id k) else (add W.forest m k x).1

/-- **Clones share their bag.** -/
theorem shared_of_extending (hm : Owned J m) (hs : Extending J.forest m held es G) : Shared J m held es G := by
  have h := grown_of_extending hm.handle hs
  have hreach := hm.handle.reachable
  constructor
  case toGrown => exact h
  case applies =>
    intro j hj
    have htop := Job.isTop hreach.orderly.coherent j hj.1
    -- The job is a root and no bag, so that it is as it was.
    have hsame : Same J.forest G j.val := by
      refine h.same hj.1 ?_
      rw [htop.rootOf_eq]
      intro he
      have hbag := hm.handle.isBag
      rw [← he, j.property] at hbag
      cases hbag
    have hread : ∀ c, G.explicit? j.val c = J.forest.explicit? j.val c := explicit?_congr hsame.store
    have hname : chainName G j [m] = chainName J.forest j [m] := by
      rw [chainName, chainName, resolvedId_of_same hreach hsame]
    have hbefore := (chain_apply hreach hm.handle.holds hm.handle.isBag j).toOverridden
    have hafter := (chain_apply h.handle.reachable h.handle.holds h.handle.isBag j).toOverridden
    rw [hname] at hafter
    refine hbefore.above (hafter.rebase hread fun {c} _ _ => ?_)
    show (override? G [] c).or (G.explicit? m.overrides c) = _
    rw [h.overrides]
    rfl
  case later =>
    intro k x
    rw [add_eq, add_eq, h.refusal?_eq]
    by_cases hk : k ∈ es.map Prod.fst
    · rw [if_pos hk, if_pos hk]
    · rw [if_neg hk, if_neg hk]
      cases refusal? J.forest m k <;> rfl

/-- A new mutator, and a job. -/
def issued : Session NodeType Key :=
  let F := ((JobOperation.newMutator "Fast").outcome .empty).2
  ⟨(Operation.bare .job).run catalog F, []⟩

/-- The mutator of `issued`. -/
def quick : Mutator := ⟨"Fast", ⟨1, .bag⟩⟩

/-- Two launches as an override. -/
def twice : Key.Content (.run .launchCount) := (2 : Int32)

theorem owned_issued : Owned issued quick := by
  have h : Owned _ _ := Owned.new (W := empty) .refl "Fast"
  have hjob := h.later (JobStepsAside.refl.step (.call (.bare .job) (by decide) fun _ _ hf => hf))
  exact hjob

/-- The forest after a clone of the mutator has been extended. -/
def extended : Forest NodeType Key := (add issued.forest quick (.run .launchCount) twice).2

theorem granted_issued : refusal? issued.forest quick (.run .launchCount) = none := by decide +kernel

theorem refused_extended :
    refusal? extended quick (.run .launchCount) = some (.duplicateOverride "Fast" (.run .launchCount)) := by
  decide +kernel

/-- One clone is granted an override, and another one is refused it. -/
theorem extending_issued :
    Extending issued.forest quick [quick, quick]
      [(.run .launchCount, (catalog.format (.run .launchCount)).write twice)] extended := by
  have hgranted : Extending issued.forest quick [quick, quick]
      [(.run .launchCount, (catalog.format (.run .launchCount)).write twice)] extended := by
    rw [extended, add_of_granted granted_issued]
    exact Extending.granted .start (List.mem_singleton.mpr rfl) (add_of_granted granted_issued twice)
  exact hgranted.refused (List.mem_cons_self ..) (add_of_refused refused_extended twice)

theorem shared_extended :
    let es := [(Key.run .launchCount, (catalog.format (.run .launchCount)).write twice)]
    (Owned issued quick ∧ Extending issued.forest quick [quick, quick] es extended) ∧
      Shared issued quick [quick, quick] es extended :=
  ⟨⟨owned_issued, extending_issued⟩, shared_of_extending owned_issued extending_issued⟩

/-- The first mutator stores what its clone has been granted, and is refused what it would have been granted. -/
theorem add_extended :
    let es := [(Key.run .launchCount, (catalog.format (.run .launchCount)).write twice)]
    (Owned issued quick ∧ Extending issued.forest quick [quick, quick] es extended) ∧
      (issued.forest.has quick.overrides (.run .launchCount) = false ∧
        extended.has quick.overrides (.run .launchCount) = true) ∧
      (add issued.forest quick (.run .launchCount) twice).1 = .ok quick ∧
      (add extended quick (.run .launchCount) twice).1 =
        .error (.duplicateOverride "Fast" (.run .launchCount)) := by
  refine ⟨⟨owned_issued, extending_issued⟩, ⟨?_, ?_⟩, ?_, ?_⟩
  · exact (free_of_refusal?_eq_none granted_issued).missing
  · rw [(grown_of_extending owned_issued.handle extending_issued).has_eq]
    rfl
  · rw [add_of_granted granted_issued]
  · rw [add_of_refused refused_extended]

end Mutator

end LayeredConfig
