import LayeredConfig.Proofs.Typing

/-!
# What a presentation depends on

A node of a type without derivations shows its leaves and nothing else: two nodes that store the same leaves,
as far as their type knows them, show the same id, the same values and the same presentations
(`Schema.Agree`). Slots do not show, and neither do characteristics that the type does not know; and since
plain data has no nodes in it, it does not matter by which names a presentation calls nodes.
-/

namespace LayeredConfig

variable {τ κ : Type} [DecidableEq κ]

/-! ## Plain data -/

namespace Value

mutual
/-- Plain data is displayed alike whatever the names of nodes. -/
theorem display_congr (m n : Node τ → String) : ∀ {v : Value τ}, v.isData = true → v.display m = v.display n
  | list vs, h => by rw [display, display, displayItems_congr m n (show allData vs = true from h)]
  | bool b, _ => by cases b <;> rfl
  | int _, _ => rfl
  | float _, _ => rfl
  | text _, _ => rfl
  | span _, _ => rfl
  | symbol _, _ => rfl

theorem displayItems_congr (m n : Node τ → String) :
    ∀ {vs : List (Value τ)}, allData vs = true → displayItems m vs = displayItems n vs
  | [], _ => rfl
  | v :: vs, h => by
      obtain ⟨hv, hvs⟩ := Bool.and_eq_true_iff.mp (show (v.isData && allData vs) = true from h)
      rw [displayItems, displayItems, display_congr m n hv, displayItems_congr m n hvs]
end

theorem summary_congr (m n : Node τ → String) {v : Value τ} (hv : v.isData = true) :
    v.summary m = v.summary n := by
  cases v with
  | list vs => rw [summary, summary, displayItems_congr m n (show allData vs = true from hv)]
  | _ => exact display_congr m n hv

/-- The text of plain data does not depend on the names of nodes. -/
theorem text_congr {v : Value τ} (hv : v.isData = true) {m n : Naming τ} (h : m.type = n.type)
    (style : ValueStyle) : style.text m v = style.text n v := by
  cases style with
  | default => exact display_congr m.node n.node hv
  | folder => exact congrArg folderSafe (display_congr m.node n.node hv)
  | summary => exact summary_congr m.node n.node hv
  | source => rw [ValueStyle.text, ValueStyle.text, h]

end Value

theorem Format.isData_of_fits {f : Format τ} (hd : f.isData = true) {v : Value τ} (hv : f.Fits v) :
    v.isData = true := by
  induction f generalizing v with
  | node t => cases hd
  | list f ih =>
      cases v with
      | list vs =>
          have hitems : ∀ {ws : List (Value τ)}, (∀ w ∈ ws, f.Fits w) → Value.allData ws = true := by
            intro ws hws
            induction ws with
            | nil => rfl
            | cons w ws ihws =>
                obtain ⟨hw, hws⟩ := List.forall_mem_cons.mp hws
                exact Bool.and_eq_true_iff.mpr ⟨ih hd hw, ihws hws⟩
          exact hitems hv
      | _ => exact hv.elim
  | _ => cases v <;> first | exact hv.elim | rfl

namespace Schema

variable (S : Schema τ κ)

/-- Two presentations are the same if they list the same characteristics and show them alike. -/
theorem presentWith_congr {style : SetStyle} {m n : Naming τ} {f g : κ → Option (Value τ)} {v w : View τ κ}
    (hlisted : (S.withValues w).filter (S.isPresentable style.withSticky) =
      (S.withValues v).filter (S.isPresentable style.withSticky))
    (hitem : ∀ k ∈ (S.withValues v).filter (S.isPresentable style.withSticky),
      (f k).map (style.values.text m) = (g k).map (style.values.text n)) :
    S.presentWith style m f w = S.presentWith style n g v := by
  have hitems : S.items style m f w = S.items style n g v := by
    rw [items, items, hlisted]
    exact List.map_congr_left fun k hk => by simp only [item, hitem k hk]
  rw [presentWith, presentWith, hitems]

/-! ## Presented data -/

section Presented

variable {S} {v : View τ κ} {k : κ} {x : Value τ}
variable (hfits : ∀ {k x}, v.store.get? k = some x → (S.format k).Fits x)
variable (hk : k ∈ (S.withValues v).filter (S.isPresentable false))

include hfits hk

theorem isData_of_shown (hx : S.shown v k = some x) : x.isData = true := by
  obtain ⟨hvalue, hpres⟩ := List.mem_filter.mp hk
  obtain ⟨hformat, hderived⟩ := S.showsData_of_isPresentable hpres
  obtain ⟨y, hy⟩ := Option.isSome_iff_exists.mp (contains_of_mem_withValues hvalue)
  have hdata : y.isData = true := Format.isData_of_fits hformat (hfits hy)
  rw [shown, hy] at hx
  cases hr : (S.characteristic k).resolution with
  | derived f =>
      rw [hr] at hx
      exact hderived f hr _ _ _ hdata hx
  | _ =>
      rw [hr] at hx
      cases hx
      exact hdata

theorem isData_of_value? (hx : S.value? v k = some x) : x.isData = true := by
  cases hr : (S.characteristic k).resolution with
  | identity =>
      rw [value?, resolve, hr] at hx
      cases hx
      rfl
  | _ =>
      refine isData_of_shown hfits hk ?_
      rw [shown, hr]
      rwa [value?, resolve, hr] at hx

/-- The text of what is presented does not depend on the names of nodes. -/
theorem text_value?_eq {m n : Naming τ} (hnaming : m.type = n.type) (style : ValueStyle) :
    (S.value? v k).map (style.text m) = (S.value? v k).map (style.text n) :=
  Option.map_congr fun _ hx => Value.text_congr (isData_of_value? hfits hk hx) hnaming style

omit hk in
/-- **An id does not depend on the names of nodes.** -/
theorem presentWith_shown_eq (naming : Naming τ) (hnaming : naming.type = S.typeName) :
    S.presentWith .display naming (S.shown v) v = S.displayText v :=
  S.presentWith_congr rfl fun _ hk =>
    Option.map_congr fun _ hx => Value.text_congr (isData_of_shown hfits hk hx) hnaming _

end Presented

end Schema

theorem SetStyle.withSticky_eq_false {style : SetStyle} (h : style ≠ .source) : style.withSticky = false := by
  cases style with
  | source => exact absurd rfl h
  | _ => rfl

namespace Schema

variable (S : Schema τ κ)

/-! ## Views that list the same -/

theorem hasChanges_eq_false_iff {v : View τ κ} :
    S.hasChanges v = false ↔ (S.withValues v).filter (S.isPresentable false) = [] := by
  rw [hasChanges, List.any_eq_false, List.filter_eq_nil_iff]

/-- The derivations of what a node of a type presents read nothing but a class `P` of characteristics. -/
def ReadsOnly (t : τ) (P : κ → Prop) : Prop :=
  ∀ {k f}, P k → S.isPresentable false k = true → (S.characteristic k).resolution = .derived f →
    ∀ {R R' : Reading τ κ}, R.type = t → R'.type = t → (∀ c, P c → R'.stored c = R.stored c) →
      ∀ raw, f R' raw = f R raw

/-- Two views of one type that list the same characteristics, sticky ones apart, all of them in a class `P` of
which both store the same. -/
structure ListedAlike (P : κ → Prop) (v w : View τ κ) : Prop where
  type : w.type = v.type
  stored : ∀ {k}, P k → w.store.get? k = v.store.get? k
  listed : (S.withValues w).filter (S.isPresentable false) = (S.withValues v).filter (S.isPresentable false)
  mem : ∀ {k}, k ∈ (S.withValues v).filter (S.isPresentable false) → P k

namespace ListedAlike

variable {S} {P : κ → Prop} {v w : View τ κ} (h : S.ListedAlike P v w)

include h

theorem hasChanges_eq : S.hasChanges w = S.hasChanges v := by
  have hnot : (!S.hasChanges w) = !S.hasChanges v := by
    rw [← Bool.coe_false_iff_false, hasChanges_eq_false_iff, hasChanges_eq_false_iff, h.listed]
  exact Bool.not_inj hnot

variable (hreads : S.ReadsOnly v.type P) {k : κ} (hk : k ∈ (S.withValues v).filter (S.isPresentable false))

include hreads hk

/-- A derivation of what is presented has the same to go by. -/
theorem derived_eq {f : Reading τ κ → Option (Value τ) → Option (Value τ)}
    (hf : (S.characteristic k).resolution = .derived f) (raw : Option (Value τ)) :
    f w.reading raw = f v.reading raw := by
  apply hreads (h.mem hk) (List.mem_filter.mp hk).2 hf
  · exact rfl
  · exact h.type
  · exact fun c hc => h.stored hc

theorem shown_eq : S.shown w k = S.shown v k := by
  simp only [shown, h.stored (h.mem hk)]
  cases hr : (S.characteristic k).resolution with
  | derived f => exact h.derived_eq hreads hk hr _
  | _ => rfl

omit hk in
theorem displayText_eq : S.displayText w = S.displayText v :=
  S.presentWith_congr h.listed fun k hk => by rw [h.shown_eq hreads hk]

theorem value?_eq : S.value? w k = S.value? v k := by
  simp only [value?, resolve, h.stored (h.mem hk)]
  cases hr : (S.characteristic k).resolution with
  | derived f => exact h.derived_eq hreads hk hr _
  | identity => simp only [identityText, h.displayText_eq hreads]
  | _ => rfl

omit hk in
/-- **Both present the same**, where sticky characteristics take no part and the text of what is shown does not
depend on the names of nodes. -/
theorem present_eq {style : SetStyle} (hstyle : style ≠ .source) {m n : Naming τ}
    (htext : ∀ k ∈ (S.withValues v).filter (S.isPresentable false),
      (S.value? v k).map (style.values.text m) = (S.value? v k).map (style.values.text n)) :
    S.present style m w = S.present style n v := by
  apply S.presentWith_congr
  · rw [SetStyle.withSticky_eq_false hstyle]
    exact h.listed
  · intro k hk
    rw [SetStyle.withSticky_eq_false hstyle] at hk
    rw [h.value?_eq hreads hk, htext k hk]

end ListedAlike

/-! ## Steady types -/

/-- Whether a characteristic holds plain data that no derivation changes. -/
def isSteady (k : κ) : Bool :=
  (S.format k).isData &&
    match (S.characteristic k).resolution with
    | .derived _ => false
    | _ => true

/-- Whether all leaves that a type knows are steady. -/
def isSteadyType (t : τ) : Bool := (S.closure t).all fun k => S.isSlot k || S.isSteady k

/-- Two views of one steady type, no bag, that store the same leaves as far as the type knows them. -/
structure Agree (v w : View τ κ) : Prop where
  type : w.type = v.type
  not_bag : S.isBag v.type = false
  steady : S.isSteadyType v.type = true
  leaf : ∀ {k}, k ∈ S.closure v.type → S.isSlot k = false → w.store.get? k = v.store.get? k
  fits : ∀ {k x}, v.store.get? k = some x → (S.format k).Fits x

namespace Agree

variable {S} {v w : View τ κ} (h : S.Agree v w)

include h

theorem contains_eq {k : κ} (hk : k ∈ S.closure v.type) (hleaf : S.isSlot k = false) :
    w.store.contains k = v.store.contains k := by
  rw [Store.contains, Store.contains, h.leaf hk hleaf]

theorem isSteady {k : κ} (hk : k ∈ S.closure v.type) (hleaf : S.isSlot k = false) : S.isSteady k = true := by
  have hall := List.all_eq_true.mp h.steady k hk
  rwa [hleaf, Bool.false_or] at hall

/-- Both list the same characteristics in their presentations. -/
theorem presentable_eq (withSticky : Bool) :
    (S.withValues w).filter (S.isPresentable withSticky) =
      (S.withValues v).filter (S.isPresentable withSticky) := by
  rw [withValues, withValues, h.type, if_neg (Bool.eq_false_iff.mp h.not_bag),
    if_neg (Bool.eq_false_iff.mp h.not_bag), List.filter_filter, List.filter_filter]
  refine List.filter_congr fun k hk => ?_
  cases hslot : S.isSlot k with
  | true => simp [isPresentable, hslot]
  | false => rw [h.contains_eq hk hslot]

/-- What is listed is a leaf that the type knows and the node stores. -/
theorem of_mem_presentable {withSticky : Bool} {k : κ}
    (hk : k ∈ (S.withValues v).filter (S.isPresentable withSticky)) :
    k ∈ S.closure v.type ∧ S.isSlot k = false ∧ v.store.contains k = true := by
  rw [List.mem_filter, withValues, if_neg (Bool.eq_false_iff.mp h.not_bag), List.mem_filter, isPresentable,
    Bool.and_eq_true, Bool.and_eq_true, Bool.not_eq_true'] at hk
  exact ⟨hk.1.1, hk.2.1.1, hk.1.2⟩

theorem shown_eq {k : κ} (hk : k ∈ S.closure v.type) (hleaf : S.isSlot k = false) :
    S.shown w k = S.shown v k := by
  have hsteady := h.isSteady hk hleaf
  rw [Schema.isSteady, Bool.and_eq_true] at hsteady
  simp only [shown, h.leaf hk hleaf]
  cases hr : (S.characteristic k).resolution with
  | derived f =>
      rw [hr] at hsteady
      exact absurd hsteady.2 Bool.false_ne_true
  | _ => rfl

/-- The two presentations are the same if their items are. -/
theorem presentWith_eq {style : SetStyle} {m n : Naming τ} {f g : κ → Option (Value τ)}
    (hitem : ∀ k ∈ S.closure v.type, S.isSlot k = false → v.store.contains k = true →
      (f k).map (style.values.text m) = (g k).map (style.values.text n)) :
    S.presentWith style m f w = S.presentWith style n g v := by
  refine S.presentWith_congr (h.presentable_eq style.withSticky) fun k hk => ?_
  obtain ⟨hreach, hleaf, hstored⟩ := h.of_mem_presentable hk
  exact hitem k hreach hleaf hstored

theorem displayText_eq : S.displayText w = S.displayText v :=
  h.presentWith_eq fun k hk hleaf _ => by rw [h.shown_eq hk hleaf]

theorem identityText_eq (raw : Option (Value τ)) : S.identityText w raw = S.identityText v raw := by
  simp only [identityText, h.displayText_eq]

theorem value?_eq {k : κ} (hk : k ∈ S.closure v.type) (hleaf : S.isSlot k = false) :
    S.value? w k = S.value? v k := by
  have hsteady := h.isSteady hk hleaf
  rw [Schema.isSteady, Bool.and_eq_true] at hsteady
  simp only [value?, resolve, h.leaf hk hleaf]
  cases hr : (S.characteristic k).resolution with
  | derived f =>
      rw [hr] at hsteady
      exact absurd hsteady.2 Bool.false_ne_true
  | identity => exact congrArg (fun s => some (Value.text s)) (h.identityText_eq _)
  | _ => rfl

/-- The text of what is stored does not depend on the names of nodes. -/
theorem text_value?_eq {m n : Naming τ} (hnaming : m.type = n.type) (style : ValueStyle) {k : κ}
    (hk : k ∈ S.closure v.type) (hleaf : S.isSlot k = false) (hstored : v.store.contains k = true) :
    (S.value? w k).map (style.text m) = (S.value? v k).map (style.text n) := by
  have hsteady := h.isSteady hk hleaf
  rw [Schema.isSteady, Bool.and_eq_true] at hsteady
  obtain ⟨x, hx⟩ := Option.isSome_iff_exists.mp hstored
  have htext := congrArg some (Value.text_congr (Format.isData_of_fits hsteady.1 (h.fits hx)) hnaming style)
  rw [h.value?_eq hk hleaf, value?, resolve, hx]
  cases hr : (S.characteristic k).resolution with
  | derived f =>
      rw [hr] at hsteady
      exact absurd hsteady.2 Bool.false_ne_true
  | identity => cases style <;> rfl
  | plain => exact htext
  | fallback d => exact htext

theorem present_eq {m n : Naming τ} (hnaming : m.type = n.type) (style : SetStyle) :
    S.present style m w = S.present style n v :=
  h.presentWith_eq fun _ hk hleaf hstored => h.text_value?_eq hnaming style.values hk hleaf hstored

theorem presentOne_eq {m n : Naming τ} (hnaming : m.type = n.type) (style : ValueStyle) {k : κ}
    (hk : k ∈ S.closure v.type) (hleaf : S.isSlot k = false) :
    S.presentOne style m w k = S.presentOne style n v k := by
  rw [presentOne, presentOne, h.contains_eq hk hleaf]
  cases hstored : v.store.contains k with
  | false => rfl
  | true => rw [h.text_value?_eq hnaming style hk hleaf hstored]

end Agree

/-- Every type but the bags knows the id. -/
theorem reaches_id {t : τ} (hb : S.isBag t = false) : S.reaches t S.id = true := by
  refine S.reaches_of_mem_declared ?_
  rw [declared, Sorting.mem_sortBy, hb]
  simp

theorem Agree.idText_eq {v w : View τ κ} (h : S.Agree v w) : S.idText w = S.idText v := by
  have hid : S.id ∈ S.closure v.type := of_decide_eq_true (S.reaches_id h.not_bag)
  have hleaf : S.isSlot S.id = false := by rw [isSlot, slotType?_id]; rfl
  rw [idText, idText, h.leaf hid hleaf, h.identityText_eq]

/-- A node that stores a name as its id has that name. -/
theorem idText_of_stored {v : View τ κ} {s : String} (hs : v.store.get? S.id = some (.text s))
    (hname : s ≠ "" ∧ s ≠ defaultText) : S.idText v = s := by
  have hexplicit : explicitName? (v.store.get? S.id) = some s := by
    rw [hs]
    exact if_neg (not_or.mpr hname)
  rw [idText, identityText, hexplicit]

end Schema

end LayeredConfig
