import LayeredConfig.Proofs.Copying
import LayeredConfig.Proofs.Parts

/-!
# Presentations are made of presentations

A node presents what its type enumerates of its store. In a treelike type that is the leaves that the type
declares, and then for each of its slots what a node of the slot's type presents over the same store
(`Schema.itemsOver_eq`). An attached node uses the store of its root, so that its items stand in those of the
root as one block, at whatever depth its slot is (`Schema.itemsOver_infix`).

Source text is left out: it lists sticky characteristics as well, and the id, which every type has, is one.
-/

namespace LayeredConfig

variable {τ κ : Type} [DecidableEq κ]

namespace Schema

variable (S : Schema τ κ)

/-- The items that a node of a type shows over a store. -/
def itemsOver (style : SetStyle) (naming : Naming τ) (t : τ) (s : Store κ (Value τ)) : List String :=
  S.items style naming (S.value? ⟨t, s⟩) ⟨t, s⟩

def slotItems (style : SetStyle) (naming : Naming τ) (s : Store κ (Value τ)) (c : κ) : List String :=
  (S.slotType? c).elim [] fun u => S.itemsOver style naming u s

/-- Whatever is presented, sticky characteristics apart, is seen by the store alone: derivations read nothing
else, and only the id goes by the name of the node. -/
def ReadsStore : Prop :=
  ∀ {k}, S.isPresentable false k = true → (S.characteristic k).resolution ≠ .identity ∧
    ∀ {f}, (S.characteristic k).resolution = .derived f →
      ∀ {R R' : Reading τ κ}, R'.stored = R.stored → ∀ raw, f R' raw = f R raw

variable {S} {style : SetStyle} {naming : Naming τ} {t u : τ} {c k : κ} {p : List κ} {s : Store κ (Value τ)}

theorem value?_of_store (hreads : S.ReadsStore) (hk : S.isPresentable false k = true) :
    S.value? ⟨u, s⟩ k = S.value? ⟨t, s⟩ k := by
  obtain ⟨hid, hderived⟩ := hreads hk
  simp only [value?, resolve]
  cases hr : (S.characteristic k).resolution with
  | identity => exact absurd hr hid
  | derived f =>
      apply hderived hr
      rfl
  | _ => rfl

omit [DecidableEq κ] in
theorem ne_id_of_isPresentable (hk : S.isPresentable false k = true) : k ≠ S.id := by
  rintro rfl
  rw [isPresentable, isSticky, S.id_sticky] at hk
  simp at hk

def shownOf (S : Schema τ κ) (style : SetStyle) (naming : Naming τ) (t : τ) (s : Store κ (Value τ))
    (ks : List κ) : List String :=
  (ks.filter fun k => S.isPresentable false k && s.contains k).map (S.item style naming (S.value? ⟨t, s⟩))

theorem shownOf_append (ks ks' : List κ) : S.shownOf style naming t s (ks ++ ks') =
    S.shownOf style naming t s ks ++ S.shownOf style naming t s ks' := by
  rw [shownOf, List.filter_append, List.map_append]
  rfl

theorem shownOf_withoutId (ks : List κ) :
    S.shownOf style naming t s (S.withoutId ks) = S.shownOf style naming t s ks := by
  rw [shownOf, shownOf, withoutId, List.filter_filter]
  refine congrArg (List.map _) (List.filter_congr fun k _ => ?_)
  cases hk : S.isPresentable false k with
  | false => rfl
  | true => simp [ne_id_of_isPresentable hk]

theorem itemsOver_eq_shownOf (hstyle : style ≠ .source) (ht : S.isBag t = false) :
    S.itemsOver style naming t s = S.shownOf style naming t s (S.fields t) := by
  rw [fields, shownOf_withoutId, shownOf, itemsOver, items, SetStyle.withSticky_eq_false hstyle, withValues, ht,
    if_neg Bool.false_ne_true, List.filter_filter]

theorem shownOf_congr (hreads : S.ReadsStore) (ks : List κ) :
    S.shownOf style naming u s ks = S.shownOf style naming t s ks := by
  refine List.map_congr_left fun k hk => ?_
  have hpres := (Bool.and_eq_true_iff.mp (List.mem_filter.mp hk).2).1
  simp only [item, value?_of_store hreads hpres (u := u) (t := t)]

/-- A slot does not show, so that its block shows what a node in it does. -/
theorem shownOf_block (hstyle : style ≠ .source) (hreads : S.ReadsStore) (hu : S.slotType? c = some u)
    (hbag : S.isBag u = false) :
    S.shownOf style naming t s (S.block c) = S.slotItems style naming s c := by
  have hslot : (S.isPresentable false c && s.contains c) = false := by
    rw [isPresentable, isSlot, hu]
    rfl
  rw [slotItems, block, hu, Option.elim_some, Option.elim_some, itemsOver_eq_shownOf hstyle hbag,
    shownOf_congr hreads (u := u) (t := t), shownOf, List.filter_cons_of_neg (by rw [hslot]; decide), shownOf]

/-- **A node of a treelike type shows the leaves that the type declares, and then what nodes in its slots show
over the same store.** -/
theorem itemsOver_eq (hstyle : style ≠ .source) (hreads : S.ReadsStore) (h : S.Treelike t) :
    S.itemsOver style naming t s =
      S.shownOf style naming t s (S.leaves t) ++ (S.ownSlots t).flatMap (S.slotItems style naming s) := by
  have hblocks : ∀ {cs : List κ}, (∀ c ∈ cs, c ∈ S.ownSlots t) →
      S.shownOf style naming t s (cs.flatMap S.block) = cs.flatMap (S.slotItems style naming s) := by
    intro cs hcs
    induction cs with
    | nil => rfl
    | cons c cs ih =>
        obtain ⟨hc, u, hu⟩ := exists_of_mem_ownSlots (hcs c (List.mem_cons_self ..))
        rw [List.flatMap_cons, List.flatMap_cons, shownOf_append,
          shownOf_block hstyle hreads hu (h.slots_not_bag (.declared hc) hu),
          ih fun c' hc' => hcs c' (List.mem_cons_of_mem c hc')]
  rw [itemsOver_eq_shownOf hstyle h.not_bag, fields_eq h, shownOf_append, shownOf_withoutId,
    hblocks fun _ hc => hc]

/-- **What is shown in a slot at whatever depth is a block of what is shown above it.** -/
theorem itemsOver_infix (hstyle : style ≠ .source) (hreads : S.ReadsStore) (h : S.Treelike t)
    (hpath : Path S t p c) (hu : S.slotType? c = some u) :
    S.itemsOver style naming u s <:+: S.itemsOver style naming t s := by
  have hown : ∀ {t v : τ} {c : κ}, S.Treelike t → c ∈ S.declared t → S.slotType? c = some v →
      S.itemsOver style naming v s <:+: S.itemsOver style naming t s := by
    intro t v c ht hc hv
    have hslot : c ∈ S.ownSlots t := List.mem_filter.mpr ⟨hc, by rw [isSlot, hv]; rfl⟩
    have hitems : S.slotItems style naming s c = S.itemsOver style naming v s := by rw [slotItems, hv]; rfl
    obtain ⟨before, after, hcs⟩ := List.append_of_mem hslot
    rw [itemsOver_eq hstyle hreads ht, hcs, List.flatMap_append, List.flatMap_cons, hitems, ← List.append_assoc]
    exact List.infix_append' _ _ _
  induction hpath with
  | declared hc => exact hown h hc hu
  | through hc hv _ ih => exact (ih (h.slot hc hv) hu).trans (hown h hc hv)

end Schema

variable [DecidableEq τ]

/-! ## Nodes of a forest -/

namespace Forest

variable {S : Schema τ κ} {F : Forest τ κ} {n : Node τ}

def items (S : Schema τ κ) (F : Forest τ κ) (style : SetStyle) (n : Node τ) : List String :=
  S.itemsOver style (F.naming S) n.type (F.storeOf n)

theorem present_eq (style : SetStyle) (n : Node τ) :
    F.present S style n = style.separator.intercalate (F.items S style n) := rfl

/-- A presentation of a node is made of those of the nodes in its slots. -/
structure Composed (S : Schema τ κ) (F : Forest τ κ) (style : SetStyle) (n : Node τ) : Prop where
  text : F.present S style n = style.separator.intercalate (F.items S style n)
  items : F.items S style n =
    ((S.leaves n.type).filter fun k => S.isPresentable false k && F.has n k).map
        (S.item style (F.naming S) (F.value? S n)) ++
      (S.ownSlots n.type).flatMap (S.slotItems style (F.naming S) (F.storeOf n))
  leaves : (S.leaves n.type).Pairwise fun a b => (compare (S.name a) (S.name b)).isLE = true
  slots : (S.ownSlots n.type).Pairwise fun a b => (compare (S.name a) (S.name b)).isLE = true
  /-- What an attached node shows is one block, wherever it is attached. -/
  block : ∀ {c d}, c ∈ S.closure n.type → F.child? n c = some d → F.items S style d <:+: F.items S style n

theorem composed (h : Coherent S F) (hn : F.knows n = true) (hreads : S.ReadsStore) (ht : S.Treelike n.type)
    {style : SetStyle} (hstyle : style ≠ .source) : Composed S F style n where
  text := rfl
  items := Schema.itemsOver_eq hstyle hreads ht
  leaves := (Schema.byName_leaves n.type).pairwise_name
  slots := (Schema.byName_ownSlots n.type).pairwise_name
  block := by
    intro c d hc hd
    have hroot := h.isTop_rootOf hn
    rw [h.child?_rootOf hn] at hd
    have hstore : F.storeOf d = F.storeOf n := by
      rw [storeOf, storeOf, place_child h hroot hd, h.place_rootOf hn]
    obtain ⟨p, hpath⟩ := Schema.exists_path hc
    rw [Forest.items, Forest.items, hstore]
    exact Schema.itemsOver_infix hstyle hreads ht hpath (h.type_of_child hd)

end Forest

/-! ## Jobs -/

namespace Job

def typePath : NodeType → List Key
  | .accuracy => [.job .accuracy]
  | .environment => [.job .environment]
  | .gc => [.job .environment, .environment .gc]
  | .infrastructure => [.job .infrastructure]
  | .diagnoser => [.job .infrastructure, .infrastructure .diagnoser]
  | .flags => [.job .flags]
  | .run => [.job .run]
  | _ => []

/-- A job and the nodes in its slots make up a tree of types. -/
def plan : catalog.Plan where
  types := parts
  place := typePath
  route := fun k => typePath k.characteristic.declaring
  not_bag := by decide
  route_eq := by decide
  place_eq := by
    have hall : ∀ u ∈ parts, ∀ c ∈ u.own,
        ((catalog.slotType? c).all fun v => v ∈ parts ∧ typePath v = typePath u ++ [c]) = true := by
      decide
    intro u hu c hc v hv
    have hplace := hall u hu c hc
    rw [hv] at hplace
    exact of_decide_eq_true hplace

end Job

/-- **The derivations of the catalogue read the store alone.** -/
theorem Key.readsStore : catalog.ReadsStore := by
  intro k hk
  refine ⟨fun hid => ?_, fun hf R R' hstored raw => ?_⟩
  · have hkey : k = .id := by
      cases k with
      | id => rfl
      | environment f => cases f <;> cases hid
      | run f => cases f <;> cases hid
      | specimen f => cases f <;> cases hid
      | _ => cases hid
    exact Schema.ne_id_of_isPresentable hk hkey
  · rcases derived_cases hf with ⟨g, rfl⟩ | ⟨rfl, rfl⟩
    · rfl
    · unfold picky
      rw [hstored]

namespace Session

open Forest

variable {S : Schema τ κ} {W : Session τ κ} {J : Session NodeType Key} {n : Node τ} {m : Node NodeType}

/-- **In every session that a client can reach, what a node of a treelike type shows is made of what the nodes in
its slots show**; and so it is for jobs and all that is attached to them. -/
theorem composed_of_reachable (h : Reachable S W) (hn : W.forest.knows n = true) (hreads : S.ReadsStore)
    (ht : S.Treelike n.type) (hJ : JobReachable J) (hm : J.forest.knows m = true) (htype : m.type ∈ Job.plan.types)
    {style : SetStyle} (hstyle : style ≠ .source) :
    Composed S W.forest style n ∧ Composed catalog J.forest style m :=
  ⟨composed h.orderly.coherent hn hreads ht hstyle,
    composed hJ.reachable.orderly.coherent hm Key.readsStore (Job.plan.treelike htype) hstyle⟩

def staffed : Session NodeType Key :=
  ⟨[.bare .job, .childOrNew ⟨1, .job⟩ (.job .run), .set ⟨2, .run⟩ (.run .launchCount) (.int 1),
      .set ⟨1, .job⟩ (.environment .jit) (.symbol (Vocabulary.symbol Jit.ryuJit))].foldl
    (Operation.run catalog) .empty, []⟩

theorem jobReachable_staffed : JobReachable staffed := by
  refine JobReachable.run .refl ?_
  decide

theorem composed_staffed :
    (JobReachable staffed ∧ staffed.forest.child? ⟨1, .job⟩ (.job .run) = some ⟨2, .run⟩ ∧
        staffed.forest.has ⟨1, .job⟩ (.environment .jit) = true) ∧
      Composed catalog staffed.forest .display ⟨1, .job⟩ ∧ Composed catalog staffed.forest .folder ⟨2, .run⟩ ∧
        staffed.forest.items catalog .display ⟨2, .run⟩ <:+: staffed.forest.items catalog .display ⟨1, .job⟩ := by
  have hreachable := jobReachable_staffed
  have hslot : Key.job .run ∈ catalog.closure .job := by
    refine of_decide_eq_true (catalog.reaches_of_mem_declared ?_)
    rw [Schema.declared, Sorting.mem_sortBy]
    decide
  have hcomposed := fun (m : Node NodeType) (hm : staffed.forest.knows m = true) (ht : m.type ∈ Job.plan.types)
      (style : SetStyle) (hstyle : style ≠ .source) =>
    (composed_of_reachable hreachable.reachable hm Key.readsStore (Job.plan.treelike ht) hreachable hm ht hstyle).2
  have hjob := hcomposed ⟨1, .job⟩ (by decide) (by decide) .display (by decide)
  exact ⟨⟨hreachable, by decide, by decide⟩, hjob, hcomposed ⟨2, .run⟩ (by decide) (by decide) .folder (by decide),
    hjob.block hslot (by decide)⟩

end Session

end LayeredConfig
