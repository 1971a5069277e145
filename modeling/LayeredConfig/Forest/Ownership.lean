import LayeredConfig.Forest

/-!
# Attaching and detaching

To *release* a node from a slot is to cut its tree in two: the slot is emptied, the node becomes a root with
a store of its own, and every non-sticky entry that belongs to its type goes with it. To *graft* a root onto
another is the converse: it goes into a slot, and what it stored comes over entry by entry, the slots in
their order and then the leaves. A slot that comes over releases whatever node is in that slot already.

Every operation checks before its first change.
-/

namespace LayeredConfig

variable {τ κ : Type} [DecidableEq κ]

namespace Schema

variable (S : Schema τ κ)

/-- Whether a characteristic goes along with a node of the type: the non-sticky ones of its closure do. -/
def belongs (t : τ) (c : κ) : Bool := S.reaches t c && !S.isSticky c

/-- What goes along with a node of the type out of a store. -/
def belongings (s : Store κ (Value τ)) (t : τ) : List (κ × Value τ) :=
  ((S.closure t).filter fun c => !S.isSticky c).filterMap fun c => (s.get? c).map (c, ·)

/-- What goes along with a node of the type that leaves the slot `c`. -/
def taken (s : Store κ (Value τ)) (c : κ) (t : τ) : List (κ × Value τ) := S.belongings (s.erase c) t

/-- What stays behind when a node of the type leaves the slot `c`. -/
def remainder (s : Store κ (Value τ)) (c : κ) (t : τ) : Store κ (Value τ) :=
  s.eraseAll (c :: (S.taken s c t).map Prod.fst)

variable {S}

theorem mem_belongings {s : Store κ (Value τ)} {t : τ} {e : κ × Value τ} :
    e ∈ S.belongings s t ↔ S.belongs t e.1 = true ∧ s.get? e.1 = some e.2 := by
  obtain ⟨k, v⟩ := e
  simp only [belongings, belongs, reaches, List.mem_filterMap, List.mem_filter, Option.map_eq_some_iff,
    Prod.mk.injEq, Bool.and_eq_true, decide_eq_true_eq]
  constructor
  · rintro ⟨c, hc, w, hw, rfl, rfl⟩
    exact ⟨hc, hw⟩
  · rintro ⟨hk, hv⟩
    exact ⟨k, hk, v, hv, rfl, rfl⟩

theorem keys_stored_sublist (s : Store κ (Value τ)) (ks : List κ) :
    ((ks.filterMap fun c => (s.get? c).map (c, ·)).map Prod.fst).Sublist ks := by
  induction ks with
  | nil => exact List.Sublist.refl _
  | cons c ks ih =>
      cases hc : s.get? c with
      | none => simpa [hc] using ih.cons c
      | some v => simpa [hc] using ih.cons_cons c

theorem nodup_keys_belongings (s : Store κ (Value τ)) (t : τ) :
    ((S.belongings s t).map Prod.fst).Nodup :=
  ((keys_stored_sublist s _).trans List.filter_sublist).nodup (S.nodup_closure t)

theorem mem_taken {s : Store κ (Value τ)} {c : κ} {t : τ} {e : κ × Value τ} :
    e ∈ S.taken s c t ↔ e.1 ≠ c ∧ S.belongs t e.1 = true ∧ s.get? e.1 = some e.2 := by
  rw [taken, mem_belongings, Store.get?_erase]
  by_cases h : e.1 = c <;> simp [h]

theorem nodup_keys_taken (s : Store κ (Value τ)) (c : κ) (t : τ) :
    ((S.taken s c t).map Prod.fst).Nodup := S.nodup_keys_belongings _ _

theorem get?_remainder (s : Store κ (Value τ)) (c : κ) (t : τ) (k : κ) :
    (S.remainder s c t).get? k = if k = c ∨ S.belongs t k = true then none else s.get? k := by
  rw [remainder, Store.get?_eraseAll]
  by_cases hk : k = c
  · simp [hk]
  · cases hs : s.get? k with
    | none => simp
    | some v =>
        have hm : k ∈ (S.taken s c t).map Prod.fst ↔ S.belongs t k = true := by
          rw [List.mem_map]
          constructor
          · rintro ⟨e, he, rfl⟩
            exact (mem_taken.mp he).2.1
          · intro hb
            exact ⟨(k, v), mem_taken.mpr ⟨hk, hb, hs⟩, rfl⟩
        simp only [List.mem_cons, hk, false_or, hm]

end Schema

variable [DecidableEq τ]

namespace Forest

variable (S : Schema τ κ)

def release (F : Forest τ κ) (c : κ) (d : Node τ) : Forest τ κ :=
  let s := F.storeOf d
  let F := (F.withStoreAt (F.place d) (S.remainder s c d.type)).plant d
  (S.taken s c d.type).foldl (receive d) F

/-- Releases whatever node is in a slot. -/
def evict (F : Forest τ κ) (n : Node τ) (c : κ) : Forest τ κ :=
  match F.child? n c with
  | some d => F.release S c d
  | none => F

/-- Brings one slot over to the root `r`, after emptying it there. -/
def graftSlot (r : Node τ) (F : Forest τ κ) (e : κ × Value τ) : Forest τ κ :=
  (F.evict S r e.1).receive r e

/-- Grafts the root `d` onto the root `r`, in the slot `c`. -/
def graft (F : Forest τ κ) (r : Node τ) (c : κ) (d : Node τ) : Forest τ κ :=
  let entries := (F.storeOf d).entries
  let F := F.settle r c d
  let F := (entries.filter fun e => e.2.node?.isSome).foldl (graftSlot S r) F
  (entries.filter fun e => !e.2.node?.isSome).foldl (receive r) F

/-- Whether a node may be attached to a root: no bag, not that root itself, a root, and not frozen. -/
def requireAttachable (F : Forest τ κ) (root d : Node τ) : Except (Failure τ κ) Unit :=
  if S.isBag d.type then .error (.bagOwnership (F.label S d))
  else if d = root then .error (.selfAttach (F.label S d))
  else
    match F.requireRoot S d with
    | .error e => .error e
    | .ok () => F.requireUnfrozen S d

/-- Attaches the node `d` in the slot `c` of the tree of `n`, whose node is released; nothing happens when it
is there already. -/
def attach (F : Forest τ κ) (n : Node τ) (c : κ) (d : Node τ) : Outcome τ κ Unit :=
  if F.child? n c = some d then (.ok (), F)
  else
    match F.requireAttachable S (F.rootOf n) d with
    | .error e => (.error e, F)
    | .ok () => (.ok (), (F.evict S n c).graft S (F.rootOf n) c d)

/-- Sets a characteristic: a leaf is overwritten, a node is attached. -/
def set (F : Forest τ κ) (n : Node τ) (c : κ) (v : Value τ) : Outcome τ κ Unit :=
  match F.requireUnfrozen S n with
  | .error e => (.error e, F)
  | .ok () =>
    if S.accepts c v then
      match v with
      | .node d => F.attach S n c d
      | v => (.ok (), F.put n c v)
    else (.error (.typeMismatch c v.kind), F)

/-- Clears a leaf; a slot cannot be cleared. -/
def clear (F : Forest τ κ) (n : Node τ) (c : κ) : Outcome τ κ Unit :=
  match F.requireUnfrozen S n with
  | .error e => (.error e, F)
  | .ok () =>
    if S.isSlot c then (.error (.nullChild c), F)
    else (.ok (), F.withStoreAt (F.place n) ((F.storeOf n).erase c))

/-- Detaches the node in a slot, which becomes a root; answers none when the slot is empty. -/
def detach (F : Forest τ κ) (n : Node τ) (c : κ) : Outcome τ κ (Option (Node τ)) :=
  if S.isSlot c then
    match F.requireUnfrozen S n with
    | .error e => (.error e, F)
    | .ok () =>
      match F.child? n c with
      | none => (.ok none, F)
      | some d => (.ok (some d), F.release S c d)
  else (.error (.notAChild c), F)

omit [DecidableEq κ] in
def markFrozen (F : Forest τ κ) (n : Node τ) : Forest τ κ :=
  F.withCell n { F.cell n with frozen := true }

/-- Freezes the tree of a root; doing so twice changes nothing. -/
def freeze (F : Forest τ κ) (n : Node τ) : Outcome τ κ Unit :=
  match F.requireRoot S n with
  | .error e => (.error e, F)
  | .ok () => (.ok (), F.markFrozen n)

end Forest

end LayeredConfig
