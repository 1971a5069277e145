import LayeredConfig.Proofs.Copying
import LayeredConfig.Proofs.InsertionOrder

/-!
# Generated ids

A node that stores no id is listed under one that is made from its display presentation: the default name if
nothing is presented, else the stem, a dash and letters. That the presentation is empty, and that the node has
no changes, are the same (`Schema.present_eq_empty_iff`), since every item has an equals sign in it. The letters
are drawn one by one, so that a shorter suffix is the beginning of a longer one (`Letters.letters_prefix`).

What is presented depends on nothing but the type of the node and what it stores under presentable
characteristics, however it came there, if derivations read nothing else: not on the order in which a bag got
its entries (`Schema.listedAlike_of_presentable`), and, if it is plain data, not on the forest
(`Schema.text_value?_of_data`).

Nothing keeps the default name from looking like an id that is made of letters.
-/

namespace LayeredConfig

variable {τ κ : Type} [DecidableEq τ] [DecidableEq κ]

/-! ## Letters -/

namespace Letters

/-- The number of a letter is below twenty-six: the carry comes only where it leaves room. -/
theorem draw_lt (w next : UInt32) : (draw w next).1 < 26 := by
  have hw := w.toNat_lt
  unfold draw
  simp only [UInt32.size]
  split
  · split <;> omega
  · omega

theorem mem_letters {k : Vector UInt32 8} {n position : Nat} {c : Char} (hc : c ∈ letters k n position) :
    'A' ≤ c ∧ c ≤ 'Z' := by
  have hall : ∀ i < 26, 'A' ≤ Char.ofNat ('A'.toNat + i) ∧ Char.ofNat ('A'.toNat + i) ≤ 'Z' := by decide
  induction n generalizing position with
  | zero => cases hc
  | succ n ih =>
      rcases List.mem_cons.mp hc with rfl | hc
      · exact hall _ (draw_lt _ _)
      · exact ih hc

theorem letters_prefix (k : Vector UInt32 8) {m n : Nat} (h : m ≤ n) (position : Nat) :
    letters k m position <+: letters k n position := by
  induction m generalizing n position with
  | zero => exact List.nil_prefix
  | succ m ih =>
      cases n with
      | zero => cases h
      | succ n => exact List.cons_prefix_cons.mpr ⟨rfl, ih (Nat.le_of_succ_le_succ h) _⟩

end Letters

/-! ## Empty presentations -/

theorem intercalate_eq_empty_iff {separator : String} {ss : List String} (hss : ∀ s ∈ ss, s ≠ "") :
    separator.intercalate ss = "" ↔ ss = [] := by
  constructor
  · intro h
    rcases ss with - | ⟨s, - | ⟨s', ss⟩⟩
    · rfl
    · rw [String.intercalate_singleton] at h
      exact absurd h (hss s (List.mem_cons_self ..))
    · rw [String.intercalate_cons_cons, String.append_assoc, String.append_eq_empty_iff] at h
      exact absurd h.1 (hss s (List.mem_cons_self ..))
  · rintro rfl
    rfl

namespace Schema

variable {S : Schema τ κ} {v w : View τ κ} {k : κ}

omit [DecidableEq τ] [DecidableEq κ] in
theorem item_ne_empty (style : SetStyle) (naming : Naming τ) (value? : κ → Option (Value τ)) (k : κ) :
    S.item style naming value? k ≠ "" := by
  cases style <;> simp [item]

omit [DecidableEq τ] in
/-- **Nothing is presented just where there are no changes.** -/
theorem present_eq_empty_iff {style : SetStyle} (hstyle : style ≠ .source) (naming : Naming τ) :
    S.present style naming v = "" ↔ S.hasChanges v = false := by
  have hitems : ∀ s ∈ S.items style naming (S.value? v) v, s ≠ "" := by
    intro s hs
    obtain ⟨k, -, rfl⟩ := List.mem_map.mp hs
    exact item_ne_empty style naming _ k
  rw [present, presentWith, intercalate_eq_empty_iff hitems, items, List.map_eq_nil_iff,
    SetStyle.withSticky_eq_false hstyle, hasChanges_eq_false_iff]

/-! ## What a presentation goes by -/

/-- The derivations of what is presented read nothing but what is presentable, and the type. -/
def ReadsPresentable (S : Schema τ κ) : Prop := ∀ t, S.ReadsOnly t fun k => S.isPresentable false k = true

omit [DecidableEq τ] in
theorem listedAlike_of_presentable (hnum : Function.Injective S.number) (ht : w.type = v.type)
    (hstored : ∀ k, S.isPresentable false k = true → w.store.get? k = v.store.get? k) :
    S.ListedAlike (fun k => S.isPresentable false k = true) v w where
  type := ht
  stored := fun hk => hstored _ hk
  mem := fun hk => (List.mem_filter.mp hk).2
  listed := by
    have hcontains : ∀ k, S.isPresentable false k = true → w.store.contains k = v.store.contains k := by
      intro k hk
      rw [Store.contains, Store.contains, hstored k hk]
    rw [withValues, withValues, ht]
    split
    · -- Both are sorted, and no two of the keys are equal in order.
      have hsorted : ∀ s : Store κ (Value τ), ((S.storedKeys s).filter (S.isPresentable false)).Pairwise
          fun a b => S.precedes a b = true := fun s =>
        (Sorting.pairwise_sortBy precedes_total precedes_trans _).filter _
      have hnodup : ∀ s : Store κ (Value τ), ((S.storedKeys s).filter (S.isPresentable false)).Nodup := fun s =>
        ((Sorting.sortBy_perm _ _).nodup_iff.mpr s.nodup_keys).filter _
      refine List.Perm.eq_of_pairwise (fun _ _ _ _ => precedes_antisymm hnum) (hsorted _) (hsorted _) ?_
      refine (List.perm_ext_iff_of_nodup (hnodup _) (hnodup _)).mpr fun k => ?_
      rw [List.mem_filter, List.mem_filter, mem_storedKeys, mem_storedKeys]
      constructor
      · rintro ⟨hk, hp⟩
        exact ⟨hcontains k hp ▸ hk, hp⟩
      · rintro ⟨hk, hp⟩
        exact ⟨(hcontains k hp).symm ▸ hk, hp⟩
    · rw [List.filter_filter, List.filter_filter]
      refine List.filter_congr fun k _ => ?_
      cases hp : S.isPresentable false k with
      | false => rfl
      | true => rw [hcontains k hp]

end Schema

/-! ## Ids -/

namespace Forest

variable {S : Schema τ κ} {F G : Forest τ κ} {m n : Node τ}

/-- The id under which a node is listed: its own if it stores one, else one made from its display
presentation. -/
def listedId (S : Schema τ κ) (F : Forest τ κ) (settings : Settings) (n : Node τ) : String :=
  if F.has n S.id then F.idOf S n else settings.generatedId (F.present S .display n)

theorem resolvedId_eq_listedId (F : Forest NodeType Key) (settings : Settings) (n : Node NodeType) :
    F.resolvedId settings n = F.listedId catalog settings n := rfl

theorem listedId_of_unnamed (hn : F.has n S.id = false) (settings : Settings) :
    F.listedId S settings n = settings.generatedId (F.present S .display n) := by
  rw [listedId, hn]
  rfl

theorem listedId_of_unchanged (hn : F.has n S.id = false) (hc : F.hasChanges S n = false) (settings : Settings) :
    F.listedId S settings n = settings.defaultName := by
  have hempty : F.present S .display n = "" := (Schema.present_eq_empty_iff (by decide) _).mpr hc
  rw [listedId_of_unnamed hn, Settings.generatedId, hempty, if_pos rfl]

theorem listedId_of_changed (hn : F.has n S.id = false) (hc : F.hasChanges S n = true) (settings : Settings) :
    F.listedId S settings n =
      settings.unnamedStem ++ "-" ++ Letters.ofText (F.present S .display n) settings.suffixLength := by
  have hne : F.present S .display n ≠ "" := by
    intro he
    have hfalse := (Schema.present_eq_empty_iff (S := S) (by decide) (F.naming S)).mp he
    rw [hasChanges, hfalse] at hc
    cases hc
  rw [listedId_of_unnamed hn, Settings.generatedId, if_neg hne]

/-- The id of a node that stores none, under all settings. -/
structure Generated (S : Schema τ κ) (F : Forest τ κ) (n : Node τ) : Prop where
  unchanged : F.hasChanges S n = false → ∀ settings, F.listedId S settings n = settings.defaultName
  changed : F.hasChanges S n = true → ∃ suffix : Nat → List Char,
    (∀ count, (suffix count).length = count ∧ ∀ c ∈ suffix count, 'A' ≤ c ∧ c ≤ 'Z') ∧
      (∀ {fewer more}, fewer ≤ more → suffix fewer <+: suffix more) ∧
      ∀ settings, F.listedId S settings n =
        settings.unnamedStem ++ "-" ++ String.ofList (suffix settings.suffixLength)
  /-- The default name stands for a node with changes only where it is the generated id. -/
  defaultName_iff : ∀ settings, F.listedId S settings n = settings.defaultName ↔ F.hasChanges S n = false ∨
    settings.defaultName =
      settings.unnamedStem ++ "-" ++ Letters.ofText (F.present S .display n) settings.suffixLength

theorem generated (hn : F.has n S.id = false) : Generated S F n where
  unchanged := fun hc settings => listedId_of_unchanged hn hc settings
  changed := fun hc => ⟨fun count => Letters.letters (Letters.key (Letters.seed (F.present S .display n))) count 0,
    fun count => ⟨Letters.length_letters _ count 0, fun _ => Letters.mem_letters⟩,
    fun h => Letters.letters_prefix _ h 0, fun settings => listedId_of_changed hn hc settings⟩
  defaultName_iff := by
    intro settings
    cases hc : F.hasChanges S n with
    | false => exact iff_of_true (listedId_of_unchanged hn hc settings) (Or.inl rfl)
    | true =>
        rw [listedId_of_changed hn hc]
        exact ⟨fun h => Or.inr h.symm, fun h => (h.resolve_left (by decide)).symm⟩

/-- Two nodes of one type that store no id and the same under presentable characteristics, be it in one forest or
in two. -/
structure SamePresentable (S : Schema τ κ) (F G : Forest τ κ) (m n : Node τ) : Prop where
  type : n.type = m.type
  unnamed : F.has m S.id = false ∧ G.has n S.id = false
  stored : ∀ k, S.isPresentable false k = true → G.explicit? n k = F.explicit? m k

theorem SamePresentable.listedId_eq (h : SamePresentable S F G m n) (hnum : Function.Injective S.number)
    (hreads : S.ReadsPresentable)
    (htext : ∀ k ∈ (S.withValues (F.view m)).filter (S.isPresentable false),
      (S.value? (F.view m) k).map (SetStyle.display.values.text (G.naming S)) =
        (S.value? (F.view m) k).map (SetStyle.display.values.text (F.naming S)))
    (settings : Settings) : G.listedId S settings n = F.listedId S settings m := by
  have halike : S.ListedAlike (fun k => S.isPresentable false k = true) (F.view m) (G.view n) :=
    Schema.listedAlike_of_presentable hnum h.type h.stored
  have hpresent : G.present S .display n = F.present S .display m :=
    halike.present_eq (hreads _) (by decide) htext
  rw [listedId_of_unnamed h.unnamed.1, listedId_of_unnamed h.unnamed.2, hpresent]

/-- Ids that tell what is presented, and nothing else. -/
structure StableIds (S : Schema τ κ) (F G : Forest τ κ) : Prop where
  generated : ∀ {n}, F.has n S.id = false → Generated S F n
  alike : ∀ {m n}, SamePresentable S F F m n → ∀ settings, F.listedId S settings n = F.listedId S settings m
  across : ∀ {m n}, SamePresentable S F G m n →
    ∀ settings, G.listedId S settings n = F.listedId S settings m

theorem stableIds (hnum : Function.Injective S.number) (hreads : S.ReadsPresentable) (hF : TypeDiscipline S F) :
    StableIds S F G where
  generated := generated
  alike := fun h settings => h.listedId_eq hnum hreads (fun _ _ => rfl) settings
  across := by
    intro m n h
    have hfits : ∀ {k x}, (F.view m).store.get? k = some x → (S.format k).Fits x := fun hx => hF.fits hx
    have hnaming : (G.naming S).type = (F.naming S).type := rfl
    exact h.listedId_eq hnum hreads fun _ hk => Schema.text_value?_eq hfits hk hnaming _

end Forest

namespace Key

theorem readsPresentable : catalog.ReadsPresentable := by
  intro t k f _ _ hf R R' _ _ hstored raw
  rcases derived_cases hf with ⟨g, rfl⟩ | ⟨rfl, rfl⟩
  · rfl
  · unfold picky
    rw [hstored (.specimen .wide) (by decide)]

end Key

/-! ## Runs -/

namespace Session

open Forest

variable {S : Schema τ κ} {W : Session τ κ} {J : Session NodeType Key}

/-- **In every session that a client can reach, the id of a node that stores none is the default name or is made
of letters, and nodes of one type that store the same presentable values go by the same id**; of jobs also if they
are in two sessions. -/
theorem stableIds_of_reachable (hnum : Function.Injective S.number) (hreads : S.ReadsPresentable)
    (h : Reachable S W) (hJ : JobReachable J) :
    (∀ G, StableIds S W.forest G) ∧ (∀ {n}, J.forest.has n .id = false → Generated catalog J.forest n) ∧
      ∀ {H m n}, SamePresentable catalog J.forest H m n →
        ∀ settings, H.resolvedId settings n = J.forest.resolvedId settings m := by
  have hjobs : ∀ H, StableIds catalog J.forest H := fun H =>
    stableIds Key.number_injective Key.readsPresentable hJ.reachable.typeDiscipline
  refine ⟨fun G => stableIds hnum hreads h.typeDiscipline, fun hn => (hjobs .empty).generated hn, ?_⟩
  intro H m n hsame settings
  rw [resolvedId_eq_listedId, resolvedId_eq_listedId]
  exact (hjobs H).across hsame settings

def shuffled : Session NodeType Key :=
  ⟨[.bare .bag, .set ⟨1, .bag⟩ (.run .launchCount) (.int 3), .set ⟨1, .bag⟩ (.gc .server) (.bool true),
      .bare .bag, .set ⟨2, .bag⟩ (.gc .server) (.bool true), .set ⟨2, .bag⟩ (.run .launchCount) (.int 3)].foldl
    (Operation.run catalog) .empty, []⟩

theorem jobReachable_shuffled : JobReachable shuffled := by
  refine JobReachable.run .refl ?_
  decide

theorem samePresentable_shuffled :
    SamePresentable catalog shuffled.forest shuffled.forest ⟨1, .bag⟩ ⟨2, .bag⟩ where
  type := rfl
  unnamed := ⟨by decide, by decide⟩
  stored := by
    intro k _
    refine Option.ext fun v => ?_
    rw [explicit?, explicit?, Store.get?_eq_some_iff, Store.get?_eq_some_iff]
    show (k, v) ∈ [(Key.gc .server, Value.bool true), (Key.run .launchCount, .int 3)] ↔
      (k, v) ∈ [(Key.run .launchCount, Value.int 3), (Key.gc .server, .bool true)]
    simp [or_comm]

theorem stableIds_shuffled :
    (JobReachable shuffled ∧ SamePresentable catalog shuffled.forest shuffled.forest ⟨1, .bag⟩ ⟨2, .bag⟩) ∧
      shuffled.forest.resolvedId .default ⟨2, .bag⟩ = shuffled.forest.resolvedId .default ⟨1, .bag⟩ ∧
      StableIds catalog shuffled.forest .empty ∧ Generated catalog shuffled.forest ⟨1, .bag⟩ := by
  obtain ⟨hstable, hgenerated, hsame⟩ := stableIds_of_reachable Key.number_injective Key.readsPresentable
    jobReachable_shuffled.reachable jobReachable_shuffled
  exact ⟨⟨jobReachable_shuffled, samePresentable_shuffled⟩, hsame samePresentable_shuffled .default,
    hstable .empty, hgenerated (by decide)⟩

/-- Where the default name is what the stem, the dash and no letters make, a node with changes goes by it. -/
theorem defaultName_of_changes :
    let settings := { Settings.default with suffixLength := 0, defaultName := "Unnamed-" }
    JobReachable shuffled ∧ shuffled.forest.has ⟨1, .bag⟩ .id = false ∧
      ¬ (shuffled.forest.resolvedId settings ⟨1, .bag⟩ = settings.defaultName ↔
        shuffled.forest.hasChanges catalog ⟨1, .bag⟩ = false) := by
  intro settings
  have hunnamed : shuffled.forest.has ⟨1, .bag⟩ catalog.id = false := by decide
  have hchanges : shuffled.forest.hasChanges catalog ⟨1, .bag⟩ = true := by decide
  have hid := listedId_of_changed hunnamed hchanges settings
  refine ⟨jobReachable_shuffled, hunnamed, fun hiff => ?_⟩
  rw [hiff.mp hid] at hchanges
  cases hchanges

end Session

end LayeredConfig
