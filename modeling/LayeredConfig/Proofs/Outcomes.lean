import LayeredConfig.Forest.Draft

/-!
# What an operation can do

One lemma for each operation lists everything that the operation can do, with what it has found before its
first change: either it is refused and the forest is as it was, or it makes one of a few changes. What is
proved of operations is proved by these cases, and never by the text of the operation.
-/

namespace LayeredConfig

variable {τ κ : Type} {S : Schema τ κ}

namespace Schema

theorem slotType?_eq_some {c : κ} {t : τ} : S.slotType? c = some t ↔ S.format c = .node t := by
  rw [slotType?]
  cases hf : S.format c <;> simp [Format.nodeType?]

theorem slotType?_eq_none {c : κ} (h : S.isSlot c = false) : S.slotType? c = none := by
  rwa [isSlot, Option.isSome_eq_false_iff, Option.isNone_iff_eq_none] at h

/-- What is written under a leaf is no node. -/
theorem node?_write {c : κ} (hc : S.slotType? c = none) (x : (S.format c).Content) :
    ((S.format c).write x).node? = none := by
  rw [slotType?] at hc
  revert hc x
  cases S.format c with
  | node t =>
      intro hc
      cases hc
  | _ => exact fun _ _ => rfl

variable [DecidableEq τ]

/-- A slot takes the nodes of its type. -/
theorem accepts_node {c : κ} {d : Node τ} : S.accepts c (.node d) = true ↔ S.slotType? c = some d.type := by
  rw [slotType?_eq_some, accepts, Format.accepts, Bool.and_eq_true, beq_iff_eq]
  constructor
  · rintro ⟨hk, -⟩
    revert hk
    cases S.format c with
    | node t => exact fun hk => congrArg Format.node (Kind.node.inj hk).symm
    | _ => exact fun hk => nomatch hk
  · intro hf
    rw [hf]
    exact ⟨rfl, congrArg Option.isSome (dif_pos rfl)⟩

/-- A slot takes nodes only, and a leaf takes none. -/
theorem node?_of_accepts {c : κ} {v : Value τ} (h : S.accepts c v = true) :
    v.node?.map Node.type = S.slotType? c := by
  cases v with
  | node d => exact (accepts_node.mp h).symm
  | _ =>
      rw [accepts, Format.accepts, Bool.and_eq_true, beq_iff_eq] at h
      rw [slotType?]
      cases hf : S.format c with
      | node t =>
          rw [hf] at h
          cases h.1
      | _ => rfl

end Schema

variable [DecidableEq τ] [DecidableEq κ]

namespace Forest

variable {F : Forest τ κ} {n d r : Node τ} {c : κ} {v : Value τ}

/-! ## Checks -/

theorem requireUnfrozen_cases (S : Schema τ κ) (F : Forest τ κ) (n : Node τ) :
    F.isFrozen n = true ∧ F.requireUnfrozen S n = .error (.frozen (F.label S n)) ∨
      F.isFrozen n = false ∧ F.requireUnfrozen S n = .ok () := by
  unfold requireUnfrozen
  cases F.isFrozen n with
  | true => exact Or.inl ⟨rfl, rfl⟩
  | false => exact Or.inr ⟨rfl, rfl⟩

theorem requireRoot_cases (S : Schema τ κ) (F : Forest τ κ) (n : Node τ) :
    (∃ e, F.requireRoot S n = .error e) ∨ F.owner? n = none ∧ F.requireRoot S n = .ok () := by
  unfold requireRoot
  cases F.owner? n with
  | some o => exact Or.inl ⟨_, rfl⟩
  | none => exact Or.inr ⟨rfl, rfl⟩

/-- A node that may be attached to a root. -/
structure Attachable (S : Schema τ κ) (F : Forest τ κ) (r d : Node τ) : Prop where
  not_bag : S.isBag d.type = false
  ne_root : d ≠ r
  root : F.owner? d = none
  unfrozen : F.isFrozen d = false

theorem requireAttachable_cases (S : Schema τ κ) (F : Forest τ κ) (r d : Node τ) :
    (∃ e, F.requireAttachable S r d = .error e) ∨
      Attachable S F r d ∧ F.requireAttachable S r d = .ok () := by
  unfold requireAttachable
  -- The order of the checks: no bag, not the root itself, a root, and not frozen.
  cases hb : S.isBag d.type with
  | true => exact Or.inl ⟨_, rfl⟩
  | false =>
      by_cases hd : d = r
      · exact Or.inl ⟨.selfAttach (F.label S d), by simp [hd]⟩
      · rcases requireRoot_cases S F d with ⟨e, he⟩ | ⟨ho, hok⟩
        · exact Or.inl ⟨e, by simp [hd, he]⟩
        · rcases requireUnfrozen_cases S F d with ⟨-, he⟩ | ⟨hf, hok'⟩
          · exact Or.inl ⟨.frozen (F.label S d), by simp [hd, hok, he]⟩
          · exact Or.inr ⟨⟨hb, hd, ho, hf⟩, by simp [hd, hok, hok']⟩

theorem Attachable.require (h : Attachable S F r d) : F.requireAttachable S r d = .ok () := by
  have hr : F.requireRoot S d = .ok () := by rw [requireRoot, h.root]
  have hf : F.requireUnfrozen S d = .ok () := by rw [requireUnfrozen, h.unfrozen]; rfl
  simp [requireAttachable, h.not_bag, h.ne_root, hr, hf]

/-! ## Operations that set -/

inductive SetCases (S : Schema τ κ) (F : Forest τ κ) (n : Node τ) (c : κ) (v : Value τ) : Prop where
  | frozen (hf : F.isFrozen n = true) (h : F.set S n c v = (.error (.frozen (F.label S n)), F))
  | refused (e : Failure τ κ) (hf : F.isFrozen n = false) (h : F.set S n c v = (.error e, F))
  | leaf (hf : F.isFrozen n = false) (hc : S.slotType? c = none) (hv : v.node? = none)
      (h : F.set S n c v = (.ok (), F.put n c v))
  | same (d : Node τ) (hv : v = .node d) (hf : F.isFrozen n = false) (hc : S.slotType? c = some d.type)
      (hd : F.child? n c = some d) (h : F.set S n c v = (.ok (), F))
  | attached (d : Node τ) (hv : v = .node d) (hf : F.isFrozen n = false)
      (hc : S.slotType? c = some d.type) (hd : F.child? n c ≠ some d)
      (ha : Attachable S F (F.rootOf n) d)
      (h : F.set S n c v = (.ok (), (F.evict S n c).graft S (F.rootOf n) c d))

theorem set_cases (S : Schema τ κ) (F : Forest τ κ) (n : Node τ) (c : κ) (v : Value τ) :
    SetCases S F n c v := by
  rcases requireUnfrozen_cases S F n with ⟨hf, he⟩ | ⟨hf, hok⟩
  · exact .frozen hf (by simp only [set, he])
  · cases ha : S.accepts c v with
    | false => exact .refused (.typeMismatch c v.kind) hf (by simp [set, hok, ha])
    | true =>
        have hty := Schema.node?_of_accepts ha
        cases v with
        | node d =>
            have hset : F.set S n c (.node d) = F.attach S n c d := by simp [set, hok, ha]
            by_cases hd : F.child? n c = some d
            · exact .same d rfl hf hty.symm hd (by rw [hset, attach, if_pos hd])
            · rcases requireAttachable_cases S F (F.rootOf n) d with ⟨e, he⟩ | ⟨hatt, hok'⟩
              · exact .refused e hf (by rw [hset, attach, if_neg hd, he])
              · exact .attached d rfl hf hty.symm hd hatt (by rw [hset, attach, if_neg hd, hok'])
        | _ => exact .leaf hf hty.symm rfl (by simp [set, hok, ha])

/-- A refused setting changes nothing. -/
theorem eq_of_set_error {e : Failure τ κ} (he : (F.set S n c v).1 = .error e) : (F.set S n c v).2 = F := by
  cases set_cases S F n c v with
  | frozen _ h => rw [h]
  | refused _ _ h => rw [h]
  | same _ _ _ _ _ h => rw [h]
  | leaf _ _ _ h =>
      rw [h] at he
      cases he
  | attached _ _ _ _ _ _ h =>
      rw [h] at he
      cases he

/-- Only what is accepted is set. -/
theorem accepts_of_set_ok (h : (F.set S n c v).1 = .ok ()) : S.accepts c v = true := by
  rcases requireUnfrozen_cases S F n with ⟨-, he⟩ | ⟨-, hok⟩
  · simp only [set, he] at h
    cases h
  · cases ha : S.accepts c v with
    | true => rfl
    | false => simp [set, hok, ha] at h

/-- A leaf of an unfrozen tree is set to whatever it accepts. -/
theorem set_of_leaf (hf : F.isFrozen n = false) (ha : S.accepts c v = true) (hv : v.node? = none) :
    F.set S n c v = (.ok (), F.put n c v) := by
  have hok : F.requireUnfrozen S n = .ok () := by rw [requireUnfrozen, hf]; rfl
  cases v with
  | node d => cases hv
  | _ => simp [set, hok, ha]

/-- Whatever may be attached is attached. -/
theorem set_of_attachable (hf : F.isFrozen n = false) (hc : S.slotType? c = some d.type)
    (hd : F.child? n c ≠ some d) (ha : Attachable S F (F.rootOf n) d) :
    F.set S n c (.node d) = (.ok (), (F.evict S n c).graft S (F.rootOf n) c d) := by
  have hok : F.requireUnfrozen S n = .ok () := by rw [requireUnfrozen, hf]; rfl
  have hset : F.set S n c (.node d) = F.attach S n c d := by
    simp [set, hok, Schema.accepts_node.mpr hc]
  rw [hset, attach, if_neg hd, ha.require]

theorem clear_cases (S : Schema τ κ) (F : Forest τ κ) (n : Node τ) (c : κ) :
    F.isFrozen n = true ∧ F.clear S n c = (.error (.frozen (F.label S n)), F) ∨
      F.isFrozen n = false ∧ F.clear S n c = (.error (.nullChild c), F) ∨
      F.isFrozen n = false ∧ S.slotType? c = none ∧
        F.clear S n c = (.ok (), F.withStoreAt (F.place n) ((F.storeOf n).erase c)) := by
  rcases requireUnfrozen_cases S F n with ⟨hf, he⟩ | ⟨hf, hok⟩
  · exact Or.inl ⟨hf, by rw [clear, he]⟩
  · cases hc : S.slotType? c with
    | some t => exact Or.inr (Or.inl ⟨hf, by rw [clear, hok]; simp [Schema.isSlot, hc]⟩)
    | none => exact Or.inr (Or.inr ⟨hf, rfl, by rw [clear, hok]; simp [Schema.isSlot, hc]⟩)

theorem detach_cases (S : Schema τ κ) (F : Forest τ κ) (n : Node τ) (c : κ) :
    S.slotType? c = none ∧ F.detach S n c = (.error (.notAChild c), F) ∨
      F.isFrozen n = true ∧ F.detach S n c = (.error (.frozen (F.label S n)), F) ∨
      F.isFrozen n = false ∧ F.child? n c = none ∧ F.detach S n c = (.ok none, F) ∨
      ∃ d, F.isFrozen n = false ∧ F.child? n c = some d ∧
        F.detach S n c = (.ok (some d), F.release S c d) := by
  cases hc : S.slotType? c with
  | none => exact Or.inl ⟨rfl, by simp [detach, Schema.isSlot, hc]⟩
  | some t =>
      have hslot : S.isSlot c = true := by simp [Schema.isSlot, hc]
      rcases requireUnfrozen_cases S F n with ⟨hf, he⟩ | ⟨hf, hok⟩
      · exact Or.inr (Or.inl ⟨hf, by simp [detach, hslot, he]⟩)
      · cases hd : F.child? n c with
        | none => exact Or.inr (Or.inr (Or.inl ⟨hf, rfl, by simp [detach, hslot, hok, hd]⟩))
        | some d => exact Or.inr (Or.inr (Or.inr ⟨d, hf, rfl, by simp [detach, hslot, hok, hd]⟩))

/-- Whatever is in a slot of an unfrozen tree can be detached. -/
theorem detach_of_child {t : τ} (hf : F.isFrozen n = false) (hc : S.slotType? c = some t)
    (hd : F.child? n c = some d) : F.detach S n c = (.ok (some d), F.release S c d) := by
  have hok : F.requireUnfrozen S n = .ok () := by rw [requireUnfrozen, hf]; rfl
  simp [detach, Schema.isSlot, hc, hok, hd]

/-! ## Operations on whole trees -/

theorem freeze_cases (S : Schema τ κ) (F : Forest τ κ) (n : Node τ) :
    (∃ e, F.freeze S n = (.error e, F)) ∨ F.owner? n = none ∧ F.freeze S n = (.ok (), F.markFrozen n) := by
  rcases requireRoot_cases S F n with ⟨e, he⟩ | ⟨ho, hok⟩
  · exact Or.inl ⟨e, by rw [freeze, he]⟩
  · exact Or.inr ⟨ho, by rw [freeze, hok]⟩

theorem applyAll_cases (S : Schema τ κ) (F : Forest τ κ) (n : Node τ) (sources : List (Node τ)) :
    F.isFrozen n = true ∧ F.applyAll S n sources = (.error (.frozen (F.label S n)), F) ∨
      F.isFrozen n = false ∧
        F.applyAll S n sources = (.ok (), sources.foldl (fun F s => F.overlay S n s) F) := by
  rcases requireUnfrozen_cases S F n with ⟨hf, he⟩ | ⟨hf, hok⟩
  · exact Or.inl ⟨hf, by rw [applyAll, he]⟩
  · exact Or.inr ⟨hf, by rw [applyAll, hok]⟩

theorem unfreezeCopy_cases (S : Schema τ κ) (F : Forest τ κ) (n : Node τ) :
    (∃ e, F.unfreezeCopy S n = (.error e, F)) ∨
      F.owner? n = none ∧ F.unfreezeCopy S n =
        (.ok (F.create S n.type).2, (F.create S n.type).1.overlay S (F.create S n.type).2 n) := by
  rcases requireRoot_cases S F n with ⟨e, he⟩ | ⟨ho, hok⟩
  · exact Or.inl ⟨e, by rw [unfreezeCopy, he]⟩
  · exact Or.inr ⟨ho, by rw [unfreezeCopy, hok]⟩

/-- What a copy is, when there is one. -/
theorem eq_of_unfreezeCopy_ok {copy : Node τ} {G : Forest τ κ} (h : F.unfreezeCopy S n = (.ok copy, G)) :
    copy = (F.create S n.type).2 ∧ G = (F.create S n.type).1.overlay S (F.create S n.type).2 n := by
  rcases unfreezeCopy_cases S F n with ⟨e, he⟩ | ⟨-, he⟩
  · rw [h] at he
    cases he
  · obtain ⟨hcopy, hG⟩ := Prod.mk.inj (h.symm.trans he)
    exact ⟨Except.ok.inj hcopy, hG⟩

theorem childOrNew_cases (S : Schema τ κ) (F : Forest τ κ) (n : Node τ) (c : κ) :
    (F.childOrNew S n c).1 = F ∨
      (∃ t, S.slotType? c = some t ∧ (F.childOrNew S n c).1 = (F.create S t).1) ∨
      ∃ t, S.slotType? c = some t ∧ F.isFrozen n = false ∧ (F.childOrNew S n c).1 = F.fill n c t := by
  cases hc : S.slotType? c with
  | none => exact Or.inl (by simp [childOrNew, hc])
  | some t =>
      cases hd : F.child? n c with
      | some d => exact Or.inl (by simp [childOrNew, hc, hd])
      | none =>
          cases hf : F.isFrozen n with
          | true => exact Or.inr (Or.inl ⟨t, rfl, by simp [childOrNew, hc, hd, hf]⟩)
          | false => exact Or.inr (Or.inr ⟨t, rfl, rfl, by simp [childOrNew, hc, hd, hf]⟩)

/-- In an unfrozen tree the answer is what is in the slot afterwards. -/
theorem childOrNew_of_unfrozen {t : τ} (hf : F.isFrozen n = false) (hc : S.slotType? c = some t) :
    (F.childOrNew S n c).2 = (F.childOrNew S n c).1.child? n c := by
  cases hd : F.child? n c with
  | some d => simp [childOrNew, hc, hd]
  | none => simp [childOrNew, hc, hd, hf]

/-! ## Steps of a draft -/

theorem draftStep_cases (S : Schema τ κ) (F : Forest τ κ) (n : Node τ) (step : DraftStep S) :
    F.draftStep S n step = F ∨
      (∃ c v, S.slotType? c = none ∧ v.node? = none ∧ F.draftStep S n step = F.put n c v) ∨
      ∃ source, F.draftStep S n step = F.overlay S n source := by
  cases step with
  | id s => exact Or.inr (Or.inl ⟨S.id, .text s, S.slotType?_id, rfl, rfl⟩)
  | value c x =>
      cases hc : S.slotType? c with
      | some t => exact Or.inl (by simp [draftStep, Schema.isSlot, hc])
      | none =>
          exact Or.inr (Or.inl ⟨c, (S.format c).write x, hc, Schema.node?_write hc x, by
            simp [draftStep, Schema.isSlot, hc]⟩)
  | raw c v =>
      cases hc : S.slotType? c with
      | some t => exact Or.inl (by simp [draftStep, Schema.isSlot, hc])
      | none =>
          cases ha : S.accepts c v with
          | false => exact Or.inl (by simp [draftStep, ha])
          | true =>
              have hv := Schema.node?_of_accepts ha
              rw [hc, Option.map_eq_none_iff] at hv
              exact Or.inr (Or.inl ⟨c, v, hc, hv, by simp [draftStep, Schema.isSlot, hc, ha]⟩)
  | merge source => exact Or.inr (Or.inr ⟨source, rfl⟩)

end Forest

end LayeredConfig
