import LayeredConfig.Proofs.Flattening
import LayeredConfig.Proofs.Legibility

/-!
# Jobs that are equal, and jobs that hold the same values

By code point two jobs are equal if they store the same characteristics and show them alike. So jobs that hold
the same values are equal. How far the converse goes depends on what a text tells. Of the leaves that jobs
know, the id shows the name that it resolves to, a list of texts its items in one text, and every other one,
floating point numbers apart, shows a legible text. Equal jobs agree in the names, the joined texts and all
other values (`Job.SameShown`); and they hold the same values if their ids are names and no item of a list has
the separator in it (`Job.Unambiguous`).
-/

namespace LayeredConfig

namespace Forest

variable {τ κ : Type} [DecidableEq τ] [DecidableEq κ] {S : Schema τ κ} {F : Forest τ κ} {x y : Node τ} {c : κ}

/-- By code point two nodes are equal at a characteristic if both store it or neither does, and if a leaf has
one text in both. -/
theorem compareAt_ordinal_eq_iff : F.compareAt S .ordinal x y c = .eq ↔ F.has x c = F.has y c ∧
    (S.isSlot c = false → F.has x c = true → F.presentOne S .default x c = F.presentOne S .default y c) := by
  have htexts : ∀ s t, OrderPolicy.ordinal.compareTexts s t = .eq ↔ s = t := fun _ _ =>
    Std.compare_eq_iff_eq
  unfold compareAt
  cases F.has x c <;> cases F.has y c
  · simp
  · simp
  · simp
  · cases S.isSlot c with
    | true => simp
    | false => simp [htexts]

theorem presentOne_of_straight (hc : Straight S c) {v : Value τ} (hv : F.explicit? x c = some v) :
    F.presentOne S .default x c = v.display (F.idOf S) := by
  have hhas : F.has x c = true := Option.isSome_of_eq_some hv
  have hvalue : F.value? S x c = some v := value?_of_straight hc hv
  show (if F.has x c = true then ((F.value? S x c).map _).getD defaultText else defaultText) = _
  rw [if_pos hhas, hvalue]
  rfl

end Forest

namespace Job

open Forest Session

variable {J : Session NodeType Key} {F : Forest NodeType Key} {x y : Job} {k : Key}

/-! ## The leaves that jobs know -/

def isStraight (k : Key) : Bool :=
  match (catalog.characteristic k).resolution with
  | .plain => true
  | .fallback _ => true
  | _ => false

theorem straight_of_isStraight (h : isStraight k = true) : Straight catalog k := by
  unfold isStraight at h
  split at h
  · next hr => exact Or.inl hr
  · next w hr => exact Or.inr ⟨w, hr⟩
  · cases h

/-- Of the leaves that jobs know one holds floating point numbers, and all others but the id and the lists of
texts are legible. -/
theorem shown_of_isLeaf (hk : isLeaf k = true) : k = .id ∨ Straight catalog k ∧
    ((catalog.format k).isLegible = true ∨ (catalog.format k).isTexts = true ∨ catalog.format k = .float) := by
  have hall : ∀ t ∈ parts, ∀ c ∈ catalog.declarations t, catalog.isSlot c = true ∨ c = .id ∨
      isStraight c = true ∧ ((catalog.format c).isLegible = true ∨ (catalog.format c).isTexts = true ∨
        c = .accuracy .maxRelativeError) := by decide
  obtain ⟨hreach, hleaf⟩ := isLeaf_iff.mp hk
  rcases forall_known hall hreach with hslot | hid | ⟨hstraight, hformat⟩
  · rw [hleaf] at hslot
    cases hslot
  · exact Or.inl hid
  · refine Or.inr ⟨straight_of_isStraight hstraight, ?_⟩
    rcases hformat with hlegible | htexts | rfl
    · exact Or.inl hlegible
    · exact Or.inr (Or.inl htexts)
    · exact Or.inr (Or.inr rfl)

theorem isLeaf_id : isLeaf .id = true := isLeaf_iff.mpr ⟨catalog.reaches_id rfl, rfl⟩

/-! ## What equal jobs have in common -/

/-- Whether no value of a job is a floating point number. -/
def Floatless (F : Forest NodeType Key) (j : Job) : Prop :=
  ∀ k ∈ catalog.closure .job, ∀ v ∈ F.explicit? j.val k, v.kind ≠ .float

instance (F : Forest NodeType Key) (j : Job) : Decidable (Floatless F j) :=
  inferInstanceAs (Decidable (∀ _ ∈ _, _))

/-- Two jobs store the same leaves that jobs know, with the same values. -/
def SameValues (F : Forest NodeType Key) (x y : Job) : Prop :=
  ∀ {k}, isLeaf k = true → F.explicit? x.val k = F.explicit? y.val k

def texts? (F : Forest NodeType Key) (j : Job) (k : Key) : Option (List String) :=
  (F.explicit? j.val k).bind Value.texts?

/-- What the texts of two jobs tell: both store the same leaves, with the same values, except that of their ids
the names are the same that they resolve to, and of lists of texts what the texts join to. -/
structure SameShown (F : Forest NodeType Key) (x y : Job) : Prop where
  stored : ∀ {k}, isLeaf k = true → F.has x.val k = F.has y.val k
  value : ∀ {k}, isLeaf k = true → k ≠ .id → (catalog.format k).isTexts = false →
    F.explicit? x.val k = F.explicit? y.val k
  joined : ∀ {k ss ts}, isLeaf k = true → (catalog.format k).isTexts = true → texts? F x k = some ss →
    texts? F y k = some ts → ", ".intercalate ss = ", ".intercalate ts
  name : F.has x.val .id = true → F.idOf catalog x.val = F.idOf catalog y.val

/-- A job whose id is a name, if it stores one, and whose lists of texts can be told from their joined texts. -/
structure Unambiguous (F : Forest NodeType Key) (j : Job) : Prop where
  id : ∀ s ∈ explicitId? F j, s ≠ "" ∧ s ≠ defaultText
  texts : ∀ k ∈ catalog.closure .job, ∀ ss ∈ texts? F j k, Separable ss

instance (F : Forest NodeType Key) (j : Job) : Decidable (Unambiguous F j) :=
  decidable_of_iff ((∀ s ∈ explicitId? F j, s ≠ "" ∧ s ≠ defaultText) ∧
      ∀ k ∈ catalog.closure .job, ∀ ss ∈ texts? F j k, Separable ss)
    ⟨fun h => ⟨h.1, h.2⟩, fun h => ⟨h.id, h.texts⟩⟩

theorem sameJob_iff_leaves (hx : Complete F x) (hy : Complete F y) : sameJob F .ordinal x y = true ↔
    ∀ {k}, isLeaf k = true → F.has x.val k = F.has y.val k ∧ (F.has x.val k = true →
      F.presentOne catalog .default x.val k = F.presentOne catalog .default y.val k) := by
  rw [sameJob, beq_iff_eq, compareJobs_eq, compareIn_eq_iff]
  simp only [compareAt_ordinal_eq_iff]
  constructor
  · intro h k hk
    obtain ⟨hreach, hleaf⟩ := isLeaf_iff.mp hk
    obtain ⟨hhas, htext⟩ := h k (of_decide_eq_true hreach)
    exact ⟨hhas, htext hleaf⟩
  · intro h k hk
    have hreach : catalog.reaches .job k = true := decide_eq_true hk
    cases hslot : catalog.isSlot k with
    | true =>
        refine ⟨(hx hreach hslot).trans (hy hreach hslot).symm, fun hleaf => ?_⟩
        cases hleaf
    | false =>
        obtain ⟨hhas, htext⟩ := h (isLeaf_iff.mpr ⟨hreach, hslot⟩)
        exact ⟨hhas, fun _ => htext⟩

theorem presentOne_id (hid : F.has x.val .id = true) :
    F.presentOne catalog .default x.val .id = F.idOf catalog x.val :=
  if_pos hid

section Shown

variable (h : TypeDiscipline catalog F)

include h

/-- A leaf that is read as it is stored and has a legible text tells its value. -/
theorem explicit?_eq_of_isLegible (hk : Straight catalog k) (hf : (catalog.format k).isLegible = true)
    (hhas : F.has x.val k = F.has y.val k) (htext : F.has x.val k = true →
      F.presentOne catalog .default x.val k = F.presentOne catalog .default y.val k) :
    F.explicit? x.val k = F.explicit? y.val k := by
  cases hv : F.explicit? x.val k with
  | none =>
      have hnone : F.has y.val k = false := hhas ▸ has_eq_false_iff.mpr hv
      exact (has_eq_false_iff.mp hnone).symm
  | some v =>
      have hstored : F.has x.val k = true := Option.isSome_of_eq_some hv
      obtain ⟨w, hw⟩ := Option.isSome_iff_exists.mp (hhas ▸ hstored : F.has y.val k = true)
      have hw : F.explicit? y.val k = some w := hw
      have hdisplay := htext hstored
      rw [presentOne_of_straight hk hv, presentOne_of_straight hk hw] at hdisplay
      rw [hw, Format.display_injective hf (h.fits hv) (h.fits hw) hdisplay]

theorem texts?_of_has (hf : (catalog.format k).isTexts = true) (hhas : F.has x.val k = true) :
    ∃ ss, texts? F x k = some ss := by
  obtain ⟨v, hv⟩ := Option.isSome_iff_exists.mp hhas
  have hv : F.explicit? x.val k = some v := hv
  obtain ⟨ss, rfl⟩ := Format.exists_texts hf (h.fits hv)
  exact ⟨ss, by rw [texts?, hv]; exact Value.texts?_list ss⟩

theorem explicit?_of_texts? (hf : (catalog.format k).isTexts = true) {ss : List String}
    (hss : texts? F x k = some ss) : F.explicit? x.val k = some (.list (ss.map .text)) := by
  obtain ⟨v, hv, htexts⟩ := Option.bind_eq_some_iff.mp hss
  obtain ⟨ts, rfl⟩ := Format.exists_texts hf (h.fits hv)
  rw [Value.texts?_list, Option.some.injEq] at htexts
  rw [hv, htexts]

theorem presentOne_texts (hk : Straight catalog k) (hf : (catalog.format k).isTexts = true) {ss : List String}
    (hss : texts? F x k = some ss) :
    F.presentOne catalog .default x.val k = "[" ++ ", ".intercalate ss ++ "]" := by
  rw [presentOne_of_straight hk (explicit?_of_texts? h hf hss), Value.display_texts]

theorem sameShown_of_leaves (hx : Floatless F x)
    (hleaves : ∀ {k}, isLeaf k = true → F.has x.val k = F.has y.val k ∧ (F.has x.val k = true →
      F.presentOne catalog .default x.val k = F.presentOne catalog .default y.val k)) : SameShown F x y where
  stored := fun hk => (hleaves hk).1
  value := by
    intro k hk hid htexts
    obtain ⟨hhas, htext⟩ := hleaves hk
    rcases shown_of_isLeaf hk with rfl | ⟨hstraight, hlegible | hf | hfloat⟩
    · exact absurd rfl hid
    · exact explicit?_eq_of_isLegible h hstraight hlegible hhas htext
    · rw [htexts] at hf
      cases hf
    · -- A value of this format would be a floating point number.
      have hnone : F.explicit? x.val k = none := by
        cases hv : F.explicit? x.val k with
        | none => rfl
        | some v =>
            have hkind := h.kind hv
            rw [hfloat] at hkind
            exact absurd hkind (hx k (of_decide_eq_true (isLeaf_iff.mp hk).1) v hv)
      rw [hnone]
      exact (has_eq_false_iff.mp (hhas ▸ has_eq_false_iff.mpr hnone)).symm
  joined := by
    intro k ss ts hk hf hss hts
    obtain ⟨hhas, htext⟩ := hleaves hk
    have hstraight : Straight catalog k := by
      rcases shown_of_isLeaf hk with rfl | ⟨hstraight, -⟩
      · cases hf
      · exact hstraight
    have hstored : F.has x.val k = true := Option.isSome_of_eq_some (explicit?_of_texts? h hf hss)
    have hjoined := htext hstored
    rwa [presentOne_texts h hstraight hf hss, presentOne_texts h hstraight hf hts, String.append_left_inj,
      String.append_right_inj] at hjoined
  name := by
    intro hid
    obtain ⟨hhas, htext⟩ := hleaves isLeaf_id
    have hname := htext hid
    rwa [presentOne_id hid, presentOne_id (hhas ▸ hid)] at hname

theorem SameShown.leaves (hs : SameShown F x y) (hk : isLeaf k = true) :
    F.has x.val k = F.has y.val k ∧ (F.has x.val k = true →
      F.presentOne catalog .default x.val k = F.presentOne catalog .default y.val k) := by
  refine ⟨hs.stored hk, fun hx => ?_⟩
  have hy : F.has y.val k = true := hs.stored hk ▸ hx
  rcases shown_of_isLeaf hk with rfl | ⟨hstraight, -⟩
  · rw [presentOne_id hx, presentOne_id hy, hs.name hx]
  · cases hf : (catalog.format k).isTexts with
    | true =>
        obtain ⟨ss, hss⟩ := texts?_of_has h hf hx
        obtain ⟨ts, hts⟩ := texts?_of_has h hf hy
        rw [presentOne_texts h hstraight hf hss, presentOne_texts h hstraight hf hts, hs.joined hk hf hss hts]
    | false =>
        have hid : k ≠ .id := by
          rintro rfl
          rcases hstraight with hr | ⟨w, hr⟩ <;> cases hr
        obtain ⟨v, hv⟩ := Option.isSome_iff_exists.mp hy
        have hv : F.explicit? y.val k = some v := hv
        rw [presentOne_of_straight hstraight hv,
          presentOne_of_straight hstraight ((hs.value hk hid hf).trans hv)]

theorem Unambiguous.explicit?_id (hx : Unambiguous F x) (hhas : F.has x.val .id = true) :
    F.explicit? x.val .id = some (.text (F.idOf catalog x.val)) := by
  obtain ⟨v, hv⟩ := Option.isSome_iff_exists.mp hhas
  have hv : F.explicit? x.val .id = some v := hv
  obtain ⟨s, rfl⟩ : ∃ s, v = .text s := by
    have hfits := h.fits hv
    cases v <;> first | exact ⟨_, rfl⟩ | exact hfits.elim
  have hname : F.idOf catalog x.val = s :=
    catalog.idText_of_stored hv (hx.id s (by rw [explicitId?, hv]; rfl))
  rw [hv, hname]

/-- **Unambiguous jobs that show the same hold the same values.** -/
theorem SameShown.sameValues (hs : SameShown F x y) (hx : Unambiguous F x) (hy : Unambiguous F y) :
    SameValues F x y := by
  intro k hk
  cases hhas : F.has x.val k with
  | false =>
      have hhas' : F.has y.val k = false := hs.stored hk ▸ hhas
      rw [has_eq_false_iff.mp hhas, has_eq_false_iff.mp hhas']
  | true =>
      have hhas' : F.has y.val k = true := hs.stored hk ▸ hhas
      by_cases hid : k = .id
      · subst hid
        rw [hx.explicit?_id h hhas, hy.explicit?_id h hhas', hs.name hhas]
      · cases hf : (catalog.format k).isTexts with
        | false => exact hs.value hk hid hf
        | true =>
            obtain ⟨ss, hss⟩ := texts?_of_has h hf hhas
            obtain ⟨ts, hts⟩ := texts?_of_has h hf hhas'
            have hmem := of_decide_eq_true (isLeaf_iff.mp hk).1
            have hsame := (hx.texts k hmem ss hss).eq_of_joined (hy.texts k hmem ts hts)
              (hs.joined hk hf hss hts)
            rw [explicit?_of_texts? h hf hss, explicit?_of_texts? h hf hts, hsame]

end Shown

theorem sameShown_of_sameValues (h : Reachable catalog J) (hs : SameValues J.forest x y) :
    SameShown J.forest x y where
  stored := fun hk => by rw [has, Store.contains]; exact congrArg Option.isSome (hs hk)
  value := fun hk _ _ => hs hk
  joined := by
    intro k ss ts hk hf hss hts
    rw [texts?, hs hk] at hss
    exact congrArg _ (Option.some.inj (hss.symm.trans hts))
  name := fun _ => (agree h fun hk => (hs hk).symm).idText_eq.symm

/-- **Jobs with all slots and without floating point numbers are equal if they show the same.** Jobs that hold
the same values are equal; and unambiguous jobs are only then. -/
theorem sameJob_iff_sameShown (hJ : JobReachable J) (hx : Complete J.forest x) (hy : Complete J.forest y)
    (hfloat : Floatless J.forest x) :
    (sameJob J.forest .ordinal x y = true ↔ SameShown J.forest x y) ∧
      (SameValues J.forest x y → sameJob J.forest .ordinal x y = true) ∧
      (Unambiguous J.forest x → Unambiguous J.forest y →
        (sameJob J.forest .ordinal x y = true ↔ SameValues J.forest x y)) := by
  have htyped := hJ.reachable.typeDiscipline
  have hshown : sameJob J.forest .ordinal x y = true ↔ SameShown J.forest x y := by
    rw [sameJob_iff_leaves hx hy]
    exact ⟨fun hall => sameShown_of_leaves htyped hfloat hall, fun hs => hs.leaves htyped⟩
  have hvalues : SameValues J.forest x y → SameShown J.forest x y := sameShown_of_sameValues hJ.reachable
  refine ⟨hshown, fun hs => hshown.mpr (hvalues hs), fun hux huy => hshown.trans ⟨?_, hvalues⟩⟩
  exact fun hs => hs.sameValues htyped hux huy

def launched (jobs : List (String × List String)) : Session NodeType Key :=
  jobs.foldl (fun J e =>
    let made := named J.forest e.1
    ⟨(made.1.set catalog made.2.val (.infrastructure .arguments) (.list (e.2.map .text))).2, J.drafts⟩) .empty

theorem jobReachable_launched (jobs : List (String × List String)) : JobReachable (launched jobs) := by
  refine List.foldlRecOn jobs _ (motive := fun J => JobReachable J) .refl fun J hJ e _ => ?_
  have hnamed := hJ.job (.named e.1) (fun _ hn => nomatch hn) fun _ hn => nomatch hn
  have hadds := Adds.job hJ.reachable.orderly [.id e.1] rfl fun _ hn => nomatch hn
  have hholds := (hadds.new_of_mem (List.mem_singleton.mpr rfl)).holds hJ.reachable.orderly rfl
  exact hnamed.step (.call (.set (named J.forest e.1).2.val (.infrastructure .arguments) (.list (e.2.map .text)))
    (fun _ hn => List.mem_singleton.mp hn ▸ hholds) fun _ _ hf => hf)

/-- Three jobs of one name, the first with one argument and the others with two, a job with an empty name, and
one that is called `Default`. -/
def argued : Session NodeType Key :=
  launched [("A", ["a, b"]), ("A", ["a", "b"]), ("A", ["a", "b"]), ("", []), ("Default", [])]

instance (F : Forest NodeType Key) (j : Job) : Decidable (Complete F j) :=
  decidable_of_iff (∀ k ∈ catalog.closure .job, catalog.isSlot k = true → F.has j.val k = true)
    ⟨fun h _ hreach => h _ (of_decide_eq_true hreach), fun h _ hk => h (decide_eq_true hk)⟩

theorem sameJob_iff_sameShown_argued :
    (JobReachable argued ∧ Complete argued.forest (nth 1) ∧ Complete argued.forest (nth 2) ∧
      Floatless argued.forest (nth 1) ∧ Unambiguous argued.forest (nth 1) ∧
      Unambiguous argued.forest (nth 2)) ∧ SameValues argued.forest (nth 1) (nth 2) := by
  have hfacts : (Complete argued.forest (nth 1) ∧ Complete argued.forest (nth 2)) ∧
      (Floatless argued.forest (nth 1) ∧ Unambiguous argued.forest (nth 1) ∧
        Unambiguous argued.forest (nth 2)) ∧
      sameJob argued.forest .ordinal (nth 1) (nth 2) = true := by decide +kernel
  obtain ⟨⟨hx, hy⟩, ⟨hfloat, hux, huy⟩, hequal⟩ := hfacts
  have hsame := sameJob_iff_sameShown (jobReachable_launched _) hx hy hfloat
  exact ⟨⟨jobReachable_launched _, hx, hy, hfloat, hux, huy⟩, (hsame.2.2 hux huy).mp hequal⟩

/-- Two jobs with different lists of arguments are equal, and so are two with different ids. -/
theorem sameJob_not_sameValues :
    JobReachable argued ∧
      (∀ j ∈ [nth 0, nth 1, nth 3, nth 4], Complete argued.forest j ∧ Floatless argued.forest j) ∧
      (sameJob argued.forest .ordinal (nth 0) (nth 1) = true ∧ ¬ SameValues argued.forest (nth 0) (nth 1)) ∧
      sameJob argued.forest .ordinal (nth 3) (nth 4) = true ∧ ¬ SameValues argued.forest (nth 3) (nth 4) := by
  have hfacts : (∀ j ∈ [nth 0, nth 1, nth 3, nth 4], Complete argued.forest j ∧ Floatless argued.forest j) ∧
      (sameJob argued.forest .ordinal (nth 0) (nth 1) = true ∧
        sameJob argued.forest .ordinal (nth 3) (nth 4) = true) ∧
      (isLeaf (.infrastructure .arguments) = true ∧
        texts? argued.forest (nth 0) (.infrastructure .arguments) ≠
          texts? argued.forest (nth 1) (.infrastructure .arguments)) ∧
      explicitId? argued.forest (nth 3) ≠ explicitId? argued.forest (nth 4) := by decide +kernel
  obtain ⟨hjobs, ⟨hlists, hids⟩, ⟨hleaf, htexts⟩, hnames⟩ := hfacts
  refine ⟨jobReachable_launched _, hjobs, ⟨hlists, fun hs => htexts ?_⟩, hids, fun hs => hnames ?_⟩
  · exact congrArg (Option.bind · Value.texts?) (hs hleaf)
  · exact congrArg (Option.bind · Value.text?) (hs isLeaf_id)

end Job

end LayeredConfig
