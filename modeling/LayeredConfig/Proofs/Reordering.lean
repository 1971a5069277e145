import LayeredConfig.Forest.Bag
import LayeredConfig.Forest.Comparison
import LayeredConfig.Resolver
import LayeredConfig.Proofs.Grounded

/-!
# Stores that were filled in another order

Two forests are *alike* when they have the same nodes with the same owners and flags, and under every node the
same entries, whatever the order in which these came in and at whatever place they are stored. What a reader is
shown of a node follows from what `get?` says of its store: listings go by the order of the type or, for bags,
are sorted, and where the places of declaration are distinct a list has only one sorted form
(`Schema.storedKeys_eq`). So alike forests read the same (`Alike.reads`).
-/

namespace LayeredConfig

variable {τ κ : Type}

open Std

/-! ## Sorted keys -/

namespace Schema

variable {S : Schema τ κ}

theorem precedes_eq (a b : κ) :
    S.precedes a b = (compareLex (compareOn S.name) (compareOn S.number) a b).isLE := rfl

theorem precedes_total (a b : κ) : S.precedes a b = true ∨ S.precedes b a = true :=
  Sorting.isLE_total (compareLex (compareOn S.name) (compareOn S.number)) a b

theorem precedes_trans (a b c : κ) (hab : S.precedes a b = true) (hbc : S.precedes b c = true) :
    S.precedes a c = true := by
  rw [precedes_eq] at *
  exact TransCmp.isLE_trans hab hbc

/-- Characteristics that precede each other are one, where no two are declared at one place. -/
theorem precedes_antisymm (hnum : Function.Injective S.number) {a b : κ} (hab : S.precedes a b = true)
    (hba : S.precedes b a = true) : a = b := by
  rw [precedes_eq] at hab hba
  have heq : compareLex (compareOn S.name) (compareOn S.number) a b = .eq :=
    OrientedCmp.isLE_antisymm hab hba
  rw [compareLex, Ordering.then_eq_eq] at heq
  exact hnum (Std.compare_eq_iff_eq.mp heq.2)

/-- Which keys a store holds determines their sorted list. -/
theorem storedKeys_eq [DecidableEq κ] (hnum : Function.Injective S.number) {s t : Store κ (Value τ)} (h : t.get? = s.get?) :
    S.storedKeys t = S.storedKeys s := by
  have hkeys : t.keys.Perm s.keys := by
    refine (List.perm_ext_iff_of_nodup t.nodup_keys s.nodup_keys).mpr fun k => ?_
    rw [← Store.keys, ← Store.keys, ← Store.contains_iff_mem_keys, ← Store.contains_iff_mem_keys,
      Store.contains, Store.contains, h]
  have hperm : (S.storedKeys t).Perm (S.storedKeys s) :=
    ((Sorting.sortBy_perm _ _).trans hkeys).trans (Sorting.sortBy_perm _ _).symm
  exact hperm.eq_of_pairwise (fun _ _ _ _ => precedes_antisymm hnum)
    (Sorting.pairwise_sortBy precedes_total precedes_trans _)
    (Sorting.pairwise_sortBy precedes_total precedes_trans _)

end Schema

/-! ## Views -/

variable [DecidableEq κ]

namespace View

/-- Two views of one type that hold the same. -/
structure Alike (v w : View τ κ) : Prop where
  type : w.type = v.type
  stored : w.store.get? = v.store.get?

namespace Alike

variable {S : Schema τ κ} {v w : View τ κ} (h : Alike v w)

include h

theorem contains_eq : w.store.contains = v.store.contains := by
  funext k
  rw [Store.contains, Store.contains, h.stored]

theorem shown_eq : S.shown w = S.shown v := by
  funext k
  simp only [Schema.shown, reading, h.type, h.stored]

variable (hnum : Function.Injective S.number)

include hnum

theorem withValues_eq : S.withValues w = S.withValues v := by
  simp only [Schema.withValues, h.type, h.contains_eq, Schema.storedKeys_eq hnum h.stored]

theorem displayText_eq : S.displayText w = S.displayText v := by
  simp only [Schema.displayText, Schema.presentWith, Schema.items, h.shown_eq, h.withValues_eq hnum]

theorem identityText_eq (raw : Option (Value τ)) : S.identityText w raw = S.identityText v raw := by
  simp only [Schema.identityText, h.displayText_eq hnum]

theorem resolve_eq (c : κ) (raw : Option (Value τ)) : S.resolve w c raw = S.resolve v c raw := by
  simp only [Schema.resolve, reading, h.type, h.stored, h.identityText_eq hnum]

theorem value?_eq : S.value? w = S.value? v := by
  funext c
  rw [Schema.value?, Schema.value?, h.resolve_eq hnum, h.stored]

theorem idText_eq : S.idText w = S.idText v := by
  rw [Schema.idText, Schema.idText, h.identityText_eq hnum, h.stored]

theorem hasChanges_eq : S.hasChanges w = S.hasChanges v := by
  rw [Schema.hasChanges, Schema.hasChanges, h.withValues_eq hnum]

theorem present_eq (style : SetStyle) (naming : Naming τ) :
    S.present style naming w = S.present style naming v := by
  simp only [Schema.present, Schema.presentWith, Schema.items, h.value?_eq hnum, h.withValues_eq hnum]

theorem presentOne_eq (style : ValueStyle) (naming : Naming τ) (c : κ) :
    S.presentOne style naming w c = S.presentOne style naming v c := by
  rw [Schema.presentOne, Schema.presentOne, h.contains_eq, h.value?_eq hnum]

/-- What a source offers goes by the order of its type, or is sorted. -/
theorem contribution_eq [DecidableEq τ] (t : τ) : S.contribution t w = S.contribution t v := by
  simp only [Schema.contribution, Schema.offered, h.type, h.stored, Schema.storedKeys_eq hnum h.stored]

end Alike

end View

/-! ## Forests -/

namespace Forest

variable [DecidableEq τ]

/-- The two forests have the same nodes with the same owners and flags, and every node stores the same. -/
structure Alike (F G : Forest τ κ) : Prop where
  next : G.next = F.next
  knows : ∀ n, G.knows n = F.knows n
  owner : ∀ n, G.owner? n = F.owner? n
  frozen : ∀ n, (G.cell n).frozen = (F.cell n).frozen
  stored : ∀ n k, G.explicit? n k = F.explicit? n k

/-- Two forests of which every reader is told the same. -/
structure ReadsAlike (S : Schema τ κ) (F G : Forest τ κ) : Prop where
  has : ∀ n c, G.has n c = F.has n c
  value : ∀ n c, G.value? S n c = F.value? S n c
  content : ∀ n c, G.get? S n c = F.get? S n c
  child : ∀ n c, G.child? n c = F.child? n c
  isFrozen : ∀ n, G.isFrozen n = F.isFrozen n
  id : ∀ n, G.idOf S n = F.idOf S n
  stored : ∀ n, G.stored S n = F.stored S n
  withValues : ∀ n, G.withValues S n = F.withValues S n
  hasChanges : ∀ n, G.hasChanges S n = F.hasChanges S n
  present : ∀ style n, G.present S style n = F.present S style n
  presentOne : ∀ style n c, G.presentOne S style n c = F.presentOne S style n c
  presentValue : ∀ style v, G.presentValue S style v = F.presentValue S style v
  structural : ∀ n, G.structural S n = F.structural S n
  leafEntries : ∀ n, G.leafEntries S n = F.leafEntries S n
  slotEntries : ∀ n, G.slotEntries S n = F.slotEntries S n
  sameBag : ∀ m n, G.sameBag S m n = F.sameBag S m n
  compare : ∀ policy m n, G.compareNodes S policy m n = F.compareNodes S policy m n

namespace Alike

variable {S : Schema τ κ} {F G H : Forest τ κ}

theorem refl (F : Forest τ κ) : Alike F F := ⟨rfl, fun _ => rfl, fun _ => rfl, fun _ => rfl, fun _ _ => rfl⟩

variable (h : Alike F G)

include h

theorem rootOf_eq (n : Node τ) : G.rootOf n = F.rootOf n := by rw [rootOf, rootOf, h.owner]

theorem isFrozen_eq (n : Node τ) : G.isFrozen n = F.isFrozen n := by
  rw [isFrozen, isFrozen, h.rootOf_eq, h.frozen]

theorem view (n : Node τ) : View.Alike (F.view n) (G.view n) := ⟨rfl, funext (h.stored n)⟩

theorem has_eq (n : Node τ) (c : κ) : G.has n c = F.has n c := congrFun (h.view n).contains_eq c

theorem child?_eq (n : Node τ) (c : κ) : G.child? n c = F.child? n c := by
  rw [Forest.child?_eq, Forest.child?_eq, h.stored]

variable (hnum : Function.Injective S.number)

include hnum

theorem idOf_eq : G.idOf S = F.idOf S := funext fun n => (h.view n).idText_eq hnum

theorem label_eq (n : Node τ) : G.label S n = F.label S n := by rw [label, label, h.idOf_eq hnum]

theorem naming_eq : G.naming S = F.naming S := by rw [naming, naming, h.idOf_eq hnum]

theorem stored_eq (n : Node τ) : G.stored S n = F.stored S n := Schema.storedKeys_eq hnum (h.view n).stored

theorem presentOne_eq (style : ValueStyle) (n : Node τ) (c : κ) :
    G.presentOne S style n c = F.presentOne S style n c := by
  rw [presentOne, presentOne, h.naming_eq hnum]
  exact (h.view n).presentOne_eq hnum style _ c

theorem leafEntries_eq (n : Node τ) : G.leafEntries S n = F.leafEntries S n := by
  simp only [leafEntries, h.stored_eq hnum, h.stored]

theorem slotEntries_eq (n : Node τ) : G.slotEntries S n = F.slotEntries S n := by
  simp only [slotEntries, h.stored_eq hnum]

theorem compareIn_eq (policy : OrderPolicy) (m n : Node τ) (cs : List κ) :
    G.compareIn S policy m n cs = F.compareIn S policy m n cs := by
  induction cs with
  | nil => rfl
  | cons c cs ih => simp only [compareIn, compareAt, h.has_eq, h.presentOne_eq hnum, ih]

theorem compareNodes_eq (policy : OrderPolicy) (m n : Node τ) :
    G.compareNodes S policy m n = F.compareNodes S policy m n := by
  rw [compareNodes, compareNodes, h.compareIn_eq hnum]

theorem sameBag_eq (m n : Node τ) : G.sameBag S m n = F.sameBag S m n := by
  rw [sameBag, sameBag, h.leafEntries_eq hnum, h.leafEntries_eq hnum, h.slotEntries_eq hnum,
    h.slotEntries_eq hnum]

theorem present_eq (style : SetStyle) (n : Node τ) : G.present S style n = F.present S style n := by
  rw [present, present, h.naming_eq hnum]
  exact (h.view n).present_eq hnum style _

theorem presentValue_eq (style : ValueStyle) (v : Value τ) :
    G.presentValue S style v = F.presentValue S style v := by
  rw [presentValue, presentValue, h.naming_eq hnum]

omit hnum in
theorem structural_eq (n : Node τ) : G.structural S n = F.structural S n := by
  have hroot : G.isRoot n = F.isRoot n := by rw [isRoot, isRoot, h.owner]
  unfold structural
  rw [hroot, h.isFrozen_eq]

theorem value?_eq (n : Node τ) (c : κ) : G.value? S n c = F.value? S n c :=
  congrFun ((h.view n).value?_eq hnum) c

/-- **Alike forests read the same.** -/
theorem reads : ReadsAlike S F G where
  has := h.has_eq
  value := h.value?_eq hnum
  content := fun n c => congrArg (Option.bind · (S.format c).read) (h.value?_eq hnum n c)
  child := h.child?_eq
  isFrozen := h.isFrozen_eq
  id := congrFun (h.idOf_eq hnum)
  stored := h.stored_eq hnum
  withValues := fun n => (h.view n).withValues_eq hnum
  hasChanges := fun n => (h.view n).hasChanges_eq hnum
  present := h.present_eq hnum
  presentOne := h.presentOne_eq hnum
  presentValue := h.presentValue_eq hnum
  structural := h.structural_eq
  leafEntries := h.leafEntries_eq hnum
  slotEntries := h.slotEntries_eq hnum
  sameBag := h.sameBag_eq hnum
  compare := h.compareNodes_eq hnum

end Alike

end Forest

end LayeredConfig
