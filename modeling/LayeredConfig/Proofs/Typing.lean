import LayeredConfig.Proofs.Jobs
import Mathlib.Data.List.TakeWhile

/-!
# Well-typed stores

Values come into a store by checked writes, by the unchecked writes of drafts, and out of other stores.
`Format.Fits` says in plain terms which values a format has, lists element by element, and
`Format.accepts_iff_fits` that the check of an operation decides it. What a draft writes without a check fits
by its type (`Format.fits_write`), and what is moved stays under its key. So in every session that a client
can reach each value fits its characteristic (`Session.typeDiscipline_of_reachable`), and what is stored under
a plain characteristic reads back.
-/

namespace LayeredConfig

variable {τ κ : Type} [DecidableEq τ] [DecidableEq κ]

/-! ## Which values a format has -/

/-- The texts of variables are the ones that can be split. -/
theorem EnvironmentVariable.isSome_ofText?_iff {s : String} :
    (ofText? s).isSome = true ↔ ∃ w : EnvironmentVariable, w.text = s := by
  rw [Option.isSome_iff_exists]
  constructor
  · rintro ⟨w, hw⟩
    exact ⟨w, text_of_ofText? hw⟩
  · rintro ⟨w, rfl⟩
    -- The text of a variable has an equals sign, so that something is left from there on.
    have hsplit : w.text.toList.dropWhile (· != '=') ≠ [] := by
      intro hnil
      have heq := List.dropWhile_eq_nil_iff.mp hnil '=' (by simp [text])
      simp at heq
    unfold ofText?
    split
    · contradiction
    · exact ⟨_, rfl⟩

namespace Format

/-- What the values of a format are. -/
def Fits : Format τ → Value τ → Prop
  | bool, .bool _ => True
  | int32, .int n => -2147483648 ≤ n ∧ n < 2147483648
  | int64, .int n => -9223372036854775808 ≤ n ∧ n < 9223372036854775808
  | float, .float _ => True
  | text, .text _ => True
  | span, .span _ => True
  | symbol e, .symbol s => s.enumeration = e.name ∧ s.member ∈ e.members
  | assignment, .text s => ∃ w : EnvironmentVariable, w.text = s
  | list f, .list vs => ∀ v ∈ vs, f.Fits v
  | node t, .node n => n.type = t
  | _, _ => False

omit [DecidableEq τ] in
theorem kind_of_fits {f : Format τ} {v : Value τ} (h : f.Fits v) : v.kind = f.kind := by
  cases f <;> cases v <;> first
    | rfl
    | exact h.elim
    | exact congrArg Kind.symbol h.1
    | exact congrArg Kind.node h

theorem isSome_int32?_iff {n : Int} : (int32? n).isSome = true ↔ -2147483648 ≤ n ∧ n < 2147483648 := by
  rw [int32?, Option.isSome_ite]

theorem isSome_int64?_iff {n : Int} :
    (int64? n).isSome = true ↔ -9223372036854775808 ≤ n ∧ n < 9223372036854775808 := by
  rw [int64?, Option.isSome_ite]

theorem isSome_mapM_iff {α β : Type} {g : α → Option β} {xs : List α} :
    (xs.mapM g).isSome = true ↔ ∀ x ∈ xs, (g x).isSome = true := by
  induction xs with
  | nil => simp
  | cons x xs ih =>
      rw [List.forall_mem_cons, ← ih, List.mapM_cons]
      cases hx : g x with
      | none => simp
      | some y => cases hxs : xs.mapM g <;> simp

/-- The reader of a format takes the values that fit, and no others. -/
theorem isSome_read_iff {f : Format τ} {v : Value τ} : (f.read v).isSome = true ↔ f.Fits v := by
  -- Reader and specification both compute on the two constructors; a value of another kind is refused by both.
  induction f generalizing v with
  | bool =>
      cases v with
      | bool b => exact iff_of_true rfl trivial
      | _ => exact iff_of_false Bool.false_ne_true id
  | int32 =>
      cases v with
      | int n => exact isSome_int32?_iff
      | _ => exact iff_of_false Bool.false_ne_true id
  | int64 =>
      cases v with
      | int n => exact isSome_int64?_iff
      | _ => exact iff_of_false Bool.false_ne_true id
  | float =>
      cases v with
      | float x => exact iff_of_true rfl trivial
      | _ => exact iff_of_false Bool.false_ne_true id
  | text =>
      cases v with
      | text s => exact iff_of_true rfl trivial
      | _ => exact iff_of_false Bool.false_ne_true id
  | span =>
      cases v with
      | span d => exact iff_of_true rfl trivial
      | _ => exact iff_of_false Bool.false_ne_true id
  | symbol e =>
      cases v with
      | symbol s => exact Option.isSome_dite
      | _ => exact iff_of_false Bool.false_ne_true id
  | assignment =>
      cases v with
      | text s => exact EnvironmentVariable.isSome_ofText?_iff
      | _ => exact iff_of_false Bool.false_ne_true id
  | list f ih =>
      cases v with
      | list vs => exact isSome_mapM_iff.trans (forall₂_congr fun _ _ => ih)
      | _ => exact iff_of_false Bool.false_ne_true id
  | node t =>
      cases v with
      | node n => exact Option.isSome_dite
      | _ => exact iff_of_false Bool.false_ne_true id

/-- **A format accepts the values that fit it, and no others.** -/
theorem accepts_iff_fits {f : Format τ} {v : Value τ} : f.accepts v = true ↔ f.Fits v := by
  rw [accepts, Bool.and_eq_true, beq_iff_eq, isSome_read_iff]
  exact ⟨fun h => h.2, fun h => ⟨kind_of_fits h, h⟩⟩

omit [DecidableEq τ] in
/-- What is written fits. -/
theorem fits_write (f : Format τ) (x : f.Content) : f.Fits (f.write x) := by
  induction f with
  | bool => exact trivial
  | int32 => exact ⟨Int32.le_toInt x, Int32.toInt_lt x⟩
  | int64 => exact ⟨Int64.le_toInt x, Int64.toInt_lt x⟩
  | float => exact trivial
  | text => exact trivial
  | span => exact trivial
  | symbol e => exact ⟨rfl, x.property⟩
  | assignment => exact ⟨x, rfl⟩
  | list f ih =>
      intro v hv
      obtain ⟨y, -, rfl⟩ := List.mem_map.mp hv
      exact ih y
  | node t => exact x.property

end Format

/-! ## Forests of values that fit -/

namespace Schema

variable {S : Schema τ κ} {c : κ}

omit [DecidableEq τ] [DecidableEq κ] in
theorem fits_node {d : Node τ} (h : S.slotType? c = some d.type) : (S.format c).Fits (.node d) := by
  rw [slotType?_eq_some] at h
  rw [h]
  rfl

end Schema

namespace Forest

/-- Every store holds under each key what fits the characteristic. -/
def WellTyped (S : Schema τ κ) (F : Forest τ κ) : Prop :=
  ∀ a c v, (F.storeAt a).get? c = some v → (S.format c).Fits v

variable {S : Schema τ κ} {F G : Forest τ κ} {n d r source : Node τ} {c : κ} {v : Value τ} {t : τ}

namespace WellTyped

omit [DecidableEq τ] in
theorem empty : WellTyped S (empty : Forest τ κ) := fun _ _ _ hv => nomatch hv

omit [DecidableEq τ] in
theorem withStoreAt (h : WellTyped S F) {a : Nat} {s : Store κ (Value τ)}
    (hs : ∀ c v, s.get? c = some v → (S.format c).Fits v) : WellTyped S (F.withStoreAt a s) := by
  intro b c v hv
  rw [storeAt_withStoreAt] at hv
  split at hv
  · exact hs c v hv
  · exact h b c v hv

theorem put (h : WellTyped S F) (n : Node τ) (hv : (S.format c).Fits v) : WellTyped S (F.put n c v) := by
  refine h.withStoreAt fun k w hw => ?_
  rw [Store.get?_insert] at hw
  split at hw
  · next hk =>
    rw [hk]
    exact Option.some.inj hw ▸ hv
  · exact h _ k w hw

theorem erase (h : WellTyped S F) (n : Node τ) (c : κ) :
    WellTyped S (F.withStoreAt (F.place n) ((F.storeOf n).erase c)) := by
  refine h.withStoreAt fun k w hw => ?_
  rw [Store.get?_erase] at hw
  split at hw
  · cases hw
  · exact h _ k w hw

theorem plant (h : WellTyped S F) (n : Node τ) : WellTyped S (F.plant n) := by
  intro a c v hv
  rw [storeAt_plant] at hv
  split at hv
  · cases hv
  · exact h a c v hv

theorem settle (h : WellTyped S F) (r : Node τ) (hd : (S.format c).Fits (.node d)) :
    WellTyped S (F.settle r c d) := by
  have hcell : WellTyped S (F.withCell d ⟨some r, F.place r, false⟩) := h
  exact hcell.put r hd

theorem markFrozen (h : WellTyped S F) (n : Node τ) : WellTyped S (F.markFrozen n) := h

theorem receive (h : WellTyped S F) (r : Node τ) {e : κ × Value τ} (he : (S.format e.1).Fits e.2) :
    WellTyped S (receive r F e) := by
  rcases entry_cases e with ⟨c, d, rfl⟩ | hleaf
  · exact h.settle r he
  · rw [receive_leaf r F hleaf]
    exact h.put r he

/-- What belongs to a node is in its store before it leaves, and stays under its key. -/
theorem release (h : WellTyped S F) (c : κ) (d : Node τ) : WellTyped S (F.release S c d) := by
  have hremainder : ∀ k v, (S.remainder (F.storeOf d) c d.type).get? k = some v →
      (S.format k).Fits v := by
    intro k v hv
    rw [Schema.get?_remainder] at hv
    split at hv
    · cases hv
    · exact h _ k v hv
  refine List.foldlRecOn _ _ ((h.withStoreAt hremainder).plant d) fun G hG e he => ?_
  exact hG.receive d (h _ _ _ (Schema.mem_taken.mp he).2.2)

theorem evict (h : WellTyped S F) (n : Node τ) (c : κ) : WellTyped S (F.evict S n c) := by
  cases hc : F.child? n c with
  | none => rwa [evict_of_none hc]
  | some d =>
      rw [evict_of_some hc]
      exact h.release c d

theorem graft (h : WellTyped S F) (r : Node τ) (hd : (S.format c).Fits (.node d)) :
    WellTyped S (F.graft S r c d) := by
  have hentries : ∀ e ∈ (F.storeOf d).entries, (S.format e.1).Fits e.2 := fun e he =>
    h _ _ _ ((F.storeOf d).get?_eq_some_iff.mpr he)
  rw [graft_eq]
  refine List.foldlRecOn _ _ (List.foldlRecOn _ _ (h.settle r hd) fun G hG e he => ?_) fun G hG e he => ?_
  · exact (hG.evict r e.1).receive r (hentries e (List.mem_filter.mp he).1)
  · exact hG.receive r (hentries e (List.mem_filter.mp he).1)

theorem fill (h : WellTyped S F) (n : Node τ) (ht : S.slotType? c = some t) :
    WellTyped S (F.fill n c t) := by
  unfold Forest.fill
  split
  · exact h
  · have hadvance : WellTyped S F.advance := h
    exact hadvance.settle _ (Schema.fits_node ht)

theorem create (h : WellTyped S F) (t : τ) : WellTyped S (F.create S t).1 :=
  create_induction (P := fun G => WellTyped S G) (h.plant _) fun _ _ _ hu hG => hG.fill _ hu

theorem takeOver (h : WellTyped S F) (n : Node τ) {e : κ × Value τ} (he : (S.format e.1).Fits e.2) :
    WellTyped S (takeOver n F e) := by
  rcases entry_cases e with ⟨c, d, rfl⟩ | hleaf
  · refine h.fill n ?_
    exact Schema.accepts_node.mp (Format.accepts_iff_fits.mpr he)
  · rw [takeOver_leaf n F hleaf]
    exact h.put n he

theorem overlay (h : WellTyped S F) (n source : Node τ) : WellTyped S (F.overlay S n source) := by
  unfold Forest.overlay
  split
  · exact h
  · refine List.foldlRecOn _ _ h fun G hG e he => ?_
    exact hG.takeOver n (h _ _ _ (get?_of_mem_contribution he))

/-! ### Operations -/

theorem set (h : WellTyped S F) (n : Node τ) (c : κ) (v : Value τ) : WellTyped S (F.set S n c v).2 := by
  cases set_cases S F n c v with
  | frozen _ he => exact he ▸ h
  | refused _ _ he => exact he ▸ h
  | leaf _ _ _ he =>
      have hok : (F.set S n c v).1 = .ok () := congrArg Prod.fst he
      exact he ▸ h.put n (Format.accepts_iff_fits.mp (accepts_of_set_ok hok))
  | same _ _ _ _ _ he => exact he ▸ h
  | attached d _ _ hc _ _ he => exact he ▸ (h.evict n c).graft _ (Schema.fits_node hc)

theorem clear (h : WellTyped S F) (n : Node τ) (c : κ) : WellTyped S (F.clear S n c).2 := by
  rcases clear_cases S F n c with ⟨-, he⟩ | ⟨-, he⟩ | ⟨-, -, he⟩
  · exact he ▸ h
  · exact he ▸ h
  · exact he ▸ h.erase n c

theorem detach (h : WellTyped S F) (n : Node τ) (c : κ) : WellTyped S (F.detach S n c).2 := by
  rcases detach_cases S F n c with ⟨-, he⟩ | ⟨-, he⟩ | ⟨-, -, he⟩ | ⟨d, -, -, he⟩
  · exact he ▸ h
  · exact he ▸ h
  · exact he ▸ h
  · exact he ▸ h.release c d

theorem freeze (h : WellTyped S F) (n : Node τ) : WellTyped S (F.freeze S n).2 := by
  rcases freeze_cases S F n with ⟨e, he⟩ | ⟨-, he⟩
  · exact he ▸ h
  · exact he ▸ h.markFrozen n

theorem applyAll (h : WellTyped S F) (n : Node τ) (sources : List (Node τ)) :
    WellTyped S (F.applyAll S n sources).2 := by
  rcases applyAll_cases S F n sources with ⟨-, he⟩ | ⟨-, he⟩
  · exact he ▸ h
  · rw [he]
    exact List.foldlRecOn _ _ h fun G hG s _ => hG.overlay n s

theorem unfreezeCopy (h : WellTyped S F) (n : Node τ) : WellTyped S (F.unfreezeCopy S n).2 := by
  rcases unfreezeCopy_cases S F n with ⟨e, he⟩ | ⟨-, he⟩
  · exact he ▸ h
  · exact he ▸ (h.create n.type).overlay _ n

theorem childOrNew (h : WellTyped S F) (n : Node τ) (c : κ) : WellTyped S (F.childOrNew S n c).1 := by
  rcases childOrNew_cases S F n c with he | ⟨t, -, he⟩ | ⟨t, ht, -, he⟩
  · rwa [he]
  · exact he ▸ h.create t
  · exact he ▸ h.fill n ht

/-- The steps of a draft that check nothing write what fits. -/
theorem draftStep (h : WellTyped S F) (n : Node τ) (step : DraftStep S) :
    WellTyped S (F.draftStep S n step) := by
  cases step with
  | id s =>
      refine h.put n ?_
      rw [Schema.format, S.id_format]
      exact trivial
  | value c x =>
      show WellTyped S (if S.isSlot c then F else F.put n c ((S.format c).write x))
      split
      · exact h
      · exact h.put n (Format.fits_write _ x)
  | raw c v =>
      show WellTyped S (if S.isSlot c || !S.accepts c v then F else F.put n c v)
      split
      · exact h
      · next hc =>
        rw [Bool.or_eq_true, not_or, Bool.not_eq_true', Bool.not_eq_false] at hc
        exact h.put n (Format.accepts_iff_fits.mp hc.2)
  | merge source => exact h.overlay n source

end WellTyped

/-- A leaf of an unfrozen tree takes whatever is written in its format. -/
theorem set_write (hf : F.isFrozen n = false) (hc : S.slotType? c = none) (x : (S.format c).Content) :
    F.set S n c ((S.format c).write x) = (.ok (), F.put n c ((S.format c).write x)) :=
  set_of_leaf hf (Format.accepts_iff_fits.mpr (Format.fits_write _ x)) (Schema.node?_write hc x)

/-! ## What is stored reads back -/

/-- Readers see what is stored, up to the form of the format. -/
def Straight (S : Schema τ κ) (c : κ) : Prop :=
  (S.characteristic c).resolution = .plain ∨ ∃ w, (S.characteristic c).resolution = .fallback w

theorem value?_of_straight (hc : Straight S c) (hv : F.explicit? n c = some v) : F.value? S n c = some v := by
  show S.resolve (F.view n) c (F.explicit? n c) = some v
  rw [hv, Schema.resolve]
  rcases hc with hc | ⟨w, hc⟩
  · rw [hc]
  · rw [hc]
    rfl

/-- The values of a forest fit their characteristics, and what is stored reads back. -/
structure TypeDiscipline (S : Schema τ κ) (F : Forest τ κ) : Prop where
  /-- Under a slot nothing is stored but nodes of its type, and under a leaf no node. -/
  slot : ∀ {n c v}, F.explicit? n c = some v → v.node?.map Node.type = S.slotType? c
  kind : ∀ {n c v}, F.explicit? n c = some v → v.kind = (S.format c).kind
  fits : ∀ {n c v}, F.explicit? n c = some v → (S.format c).Fits v
  /-- What is stored might be set again. -/
  accepted : ∀ {n c v}, F.explicit? n c = some v → S.accepts c v = true
  reads : ∀ {n c}, Straight S c → F.has n c = true →
    ∃ x, F.get? S n c = some x ∧ F.explicit? n c = some ((S.format c).write x)

theorem WellTyped.typeDiscipline (h : WellTyped S F) : TypeDiscipline S F := by
  have accepted : ∀ {n c v}, F.explicit? n c = some v → S.accepts c v = true := fun hv =>
    Format.accepts_iff_fits.mpr (h _ _ _ hv)
  constructor
  case slot => exact fun hv => Schema.node?_of_accepts (accepted hv)
  case kind => exact fun hv => Format.kind_of_fits (h _ _ _ hv)
  case fits => exact fun hv => h _ _ _ hv
  case accepted => exact accepted
  case reads =>
    intro n c hc hhas
    obtain ⟨v, hv⟩ := Option.isSome_iff_exists.mp hhas
    obtain ⟨x, hx⟩ := Option.isSome_iff_exists.mp (Format.isSome_read_iff.mpr (h _ _ _ hv))
    have hget : F.get? S n c = some x := by
      rw [get?, value?_of_straight hc hv]
      exact hx
    exact ⟨x, hget, by rw [Format.write_of_read _ v x hx]; exact hv⟩

end Forest

/-! ## Runs -/

theorem Operation.wellTyped {S : Schema τ κ} {F : Forest τ κ} (o : Operation τ κ) (h : F.WellTyped S) :
    (o.run S F).WellTyped S := by
  cases o with
  | bare t => exact h.plant _
  | create t => exact h.create t
  | child n c => exact h
  | childOrNew n c => exact h.childOrNew n c
  | set n c v => exact h.set n c v
  | clear n c => exact h.clear n c
  | detach n c => exact h.detach n c
  | freeze n => exact h.freeze n
  | unfreezeCopy n => exact h.unfreezeCopy n
  | applyAll n sources => exact h.applyAll n sources

namespace Session

open Forest

variable {S : Schema τ κ} {W W' : Session τ κ}

theorem Step.wellTyped (hs : Step S W W') (h : W.forest.WellTyped S) : W'.forest.WellTyped S := by
  cases hs with
  | call o _ => exact o.wellTyped h
  | begin t => exact h.create t
  | extend _ step _ => exact h.draftStep _ step
  | finish _ => exact h
  | finishFrozen _ => exact h.markFrozen _

theorem Steps.wellTyped (hs : Steps S W W') (h : W.forest.WellTyped S) : W'.forest.WellTyped S := by
  induction hs with
  | refl => exact h
  | tail _ hstep ih => exact hstep.wellTyped ih

theorem Reachable.typeDiscipline (h : Reachable S W) : TypeDiscipline S W.forest :=
  (Steps.wellTyped h WellTyped.empty).typeDiscipline

/-- **In every session that a client can reach the values fit their characteristics, and read back.** -/
theorem typeDiscipline_of_reachable {J : Session NodeType Key} (h : Reachable S W) (hJ : JobReachable J) :
    TypeDiscipline S W.forest ∧ TypeDiscipline catalog J.forest :=
  ⟨h.typeDiscipline, hJ.reachable.typeDiscipline⟩

/-- A bag that stores a list of lists. -/
def tabled : Session NodeType Key :=
  ⟨[.bare .bag, .set ⟨1, .bag⟩ (.specimen .matrix) (.list [.list [.int 1, .int (-2)], .list []])].foldl
    (Operation.run catalog) .empty, []⟩

theorem typeDiscipline_tabled :
    (Reachable catalog tabled ∧ tabled.forest.has ⟨1, .bag⟩ (.specimen .matrix) = true) ∧
      (JobReachable warm ∧ warm.forest.has ⟨1, .bag⟩ (.run .warmupCount) = true) ∧
      TypeDiscipline catalog tabled.forest ∧ TypeDiscipline catalog warm.forest := by
  have h₀ : Reachable catalog empty := Steps.refl
  have h₁ := h₀.call (.bare .bag) (by decide)
  have h₂ := h₁.call (.set ⟨1, .bag⟩ (.specimen .matrix) (.list [.list [.int 1, .int (-2)], .list []]))
    (by decide)
  exact ⟨⟨h₂, by decide⟩, ⟨jobReachable_warm, by decide⟩, typeDiscipline_of_reachable h₂ jobReachable_warm⟩

end Session

end LayeredConfig
