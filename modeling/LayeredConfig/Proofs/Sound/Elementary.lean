import LayeredConfig.Proofs.Sound

/-!
# Elementary changes keep soundness

Every elementary change has a lemma that says which nodes it loosens or fixes:

- `Sound.with_leaf` changes leaves only;
- `Sound.pluck` empties slots and loosens what was in them, `Sound.uproot` loosens a whole tree;
- `Sound.plant` makes a loose node a root, `Sound.settle` puts one into an empty slot.
-/

namespace LayeredConfig

namespace Forest

variable {τ κ : Type} [DecidableEq τ] [DecidableEq κ]

variable {S : Schema τ κ} {loose : Node τ → Prop} {F : Forest τ κ}

namespace Sound

theorem empty : Sound S loose (empty : Forest τ κ) := by
  have hk : ∀ n, (Forest.empty : Forest τ κ).knows n = false := fun n => rfl
  constructor
  case serial_lt => intro n hn; rw [hk] at hn; cases hn
  case place_lt => intro n hn; rw [hk] at hn; cases hn
  case owner => intro n o hn; rw [hk] at hn; cases hn
  case place_inj => intro r r' hr; have := hr.known; rw [hk] at this; cases this
  case slot => intro r c m hr; have := hr.known; rw [hk] at this; cases this
  case slot_inj => intro r c c' m hr; have := hr.known; rw [hk] at this; cases this
  case listed => intro n o hn; rw [hk] at hn; cases hn
  case flag => intro n hn; rw [hk] at hn; cases hn
  case typed => intro a c v hv; cases hv

theorem advance (h : Sound S loose F) : Sound S loose F.advance :=
  h.of_same_slots (fun _ => rfl) (fun _ => rfl) (Nat.le_succ _) (fun _ _ => rfl) h.typed

/-- A store may be changed freely under a leaf, as long as it holds no node there. -/
theorem with_leaf (h : Sound S loose F) {a : Nat} {s : Store κ (Value τ)} {c : κ}
    (hc : S.slotType? c = none) (hs : ∀ k, k ≠ c → s.get? k = (F.storeAt a).get? k)
    (hv : ∀ v, s.get? c = some v → v.node? = none) : Sound S loose (F.withStoreAt a s) := by
  refine h.of_same_slots (fun _ => rfl) (fun _ => rfl) (Nat.le_refl _) ?_ ?_
  · intro m k
    by_cases hm : F.place m = a
    · rw [child?_eq, explicit?_eq, place_withStoreAt, storeAt_withStoreAt, if_pos hm]
      by_cases hk : k = c
      · rw [hk, h.child?_leaf hc]
        exact Option.bind_eq_none_iff.mpr hv
      · rw [hs k hk, ← hm]
        rfl
    · rw [child?_eq, explicit?_eq, place_withStoreAt, storeAt_withStoreAt, if_neg hm]
      rfl
  · intro b k w hw
    rw [storeAt_withStoreAt] at hw
    split at hw
    · by_cases hk : k = c
      · rw [hk] at hw ⊢
        rw [hv w hw, hc]
        rfl
      · exact h.typed (hs k hk ▸ hw)
    · exact h.typed hw

theorem put_leaf (h : Sound S loose F) (n : Node τ) {c : κ} {v : Value τ} (hc : S.slotType? c = none)
    (hv : v.node? = none) : Sound S loose (F.put n c v) := by
  refine h.with_leaf hc (fun k hk => ?_) (fun w hw => ?_)
  · rw [Store.get?_insert, if_neg hk]
    rfl
  · rw [Store.get?_insert_self] at hw
    exact Option.some.inj hw ▸ hv

theorem erase_leaf (h : Sound S loose F) (n : Node τ) {c : κ} (hc : S.slotType? c = none) :
    Sound S loose (F.withStoreAt (F.place n) ((F.storeOf n).erase c)) := by
  refine h.with_leaf hc (fun k hk => ?_) (fun w hw => ?_)
  · rw [Store.get?_erase, if_neg hk]
    rfl
  · rw [Store.get?_erase, if_pos rfl] at hw
    cases hw

/-- A loose node, or a new one, becomes a root. -/
theorem plant (h : Sound S loose F) {n : Node τ} (hn : F.knows n = true → loose n)
    (hs : n.serial ≤ F.next) : Sound S (fun m => loose m ∧ m ≠ n) (F.plant n) := by
  have known : ∀ {m}, (F.plant n).knows m = true → m ≠ n → F.knows m = true := by
    intro m hm hne
    simpa [hne] using hm
  have fixed : ∀ {m}, ¬ (loose m ∧ m ≠ n) → m ≠ n → ¬ loose m := fun hm hne hl => hm ⟨hl, hne⟩
  have stands : ∀ {r}, (F.plant n).Stands (fun m => loose m ∧ m ≠ n) r → r ≠ n → F.Stands loose r := by
    intro r hr hne
    have hro := hr.root
    rw [owner?_plant, if_neg hne] at hro
    exact ⟨known hr.known hne, fixed hr.fixed hne, hro⟩
  have child : ∀ {m c}, F.knows m = true → m ≠ n → (F.plant n).child? m c = F.child? m c := by
    intro m c hm hne
    rw [child?_eq, explicit?_plant_of_ne F n m c hne (h.place_lt hm)]
    rfl
  have child_self : ∀ {c}, (F.plant n).child? n c = none := by
    intro c
    rw [child?_eq, explicit?_plant_self]
    rfl
  -- An old node that is attached has an old owner, which stands as before.
  have owner_old : ∀ {m o}, (F.plant n).knows m = true → ¬ (loose m ∧ m ≠ n) →
      (F.plant n).owner? m = some o → m ≠ n ∧ o ≠ n ∧ F.owner? m = some o := by
    intro m o hm hl ho
    by_cases hne : m = n
    · rw [owner?_plant, if_pos hne] at ho
      cases ho
    · rw [owner?_plant, if_neg hne] at ho
      have hst := (h.owner (known hm hne) (fixed hl hne) ho).1
      exact ⟨hne, fun e => hst.fixed (e ▸ hn (e ▸ hst.known)), ho⟩
  constructor
  case serial_lt =>
    intro m hm
    rw [next_plant]
    by_cases hne : m = n
    · exact hne ▸ Nat.lt_succ_of_le hs
    · exact Nat.lt_succ_of_lt (h.serial_lt (known hm hne))
  case place_lt =>
    intro m hm
    rw [next_plant, place_plant]
    split
    · exact Nat.lt_succ_self _
    · next hne => exact Nat.lt_succ_of_lt (h.place_lt (known hm hne))
  case owner =>
    intro m o hm hl ho
    obtain ⟨hne, hno, ho⟩ := owner_old hm hl ho
    obtain ⟨hst, hp⟩ := h.owner (known hm hne) (fixed hl hne) ho
    refine ⟨⟨?_, fun hlo => hst.fixed hlo.1, ?_⟩, ?_⟩
    · simp [hst.known]
    · rw [owner?_plant, if_neg hno, hst.root]
    · rw [place_plant, place_plant, if_neg hne, if_neg hno, hp]
  case place_inj =>
    intro r r' hr hr' he
    rw [place_plant, place_plant] at he
    by_cases hrn : r = n
    · by_cases hrn' : r' = n
      · exact hrn.trans hrn'.symm
      · rw [if_pos hrn, if_neg hrn'] at he
        exact absurd he.symm (Nat.ne_of_lt (h.place_lt (stands hr' hrn').known))
    · by_cases hrn' : r' = n
      · rw [if_neg hrn, if_pos hrn'] at he
        exact absurd he (Nat.ne_of_lt (h.place_lt (stands hr hrn).known))
      · rw [if_neg hrn, if_neg hrn'] at he
        exact h.place_inj (stands hr hrn) (stands hr' hrn') he
  case slot =>
    intro r c m hr hm
    by_cases hrn : r = n
    · rw [hrn, child_self] at hm
      cases hm
    · have hst := stands hr hrn
      rw [child hst.known hrn] at hm
      obtain ⟨hk, hl, ho⟩ := h.slot hst hm
      have hmn : m ≠ n := fun e => hl (e ▸ hn (e ▸ hk))
      exact ⟨by simp [hk], fun hlm => hl hlm.1, by rw [owner?_plant, if_neg hmn, ho]⟩
  case slot_inj =>
    intro r c c' m hr hm hm'
    by_cases hrn : r = n
    · rw [hrn, child_self] at hm
      cases hm
    · have hst := stands hr hrn
      rw [child hst.known hrn] at hm hm'
      exact h.slot_inj hst hm hm'
  case listed =>
    intro m o hm hl ho
    obtain ⟨hne, hno, ho⟩ := owner_old hm hl ho
    obtain ⟨c, hc⟩ := h.listed (known hm hne) (fixed hl hne) ho
    have hst := (h.owner (known hm hne) (fixed hl hne) ho).1
    exact ⟨c, (child hst.known hno).trans hc⟩
  case flag =>
    intro m hm hf
    rw [cell_plant] at hf
    rw [owner?_plant]
    split
    · rfl
    · next hne =>
      rw [if_neg hne] at hf
      exact h.flag (known hm hne) hf
  case typed =>
    intro a c v hv
    rw [storeAt_plant] at hv
    split at hv
    · cases hv
    · exact h.typed hv

/-- A loose node, or a new one, is put into an empty slot. -/
theorem settle (h : Sound S loose F) {r d : Node τ} {c : κ} (hr : F.Stands loose r)
    (hd : F.knows d = true → loose d) (hs : d.serial < F.next) (hc : F.child? r c = none)
    (ht : S.slotType? c = some d.type) : Sound S (fun m => loose m ∧ m ≠ d) (F.settle r c d) := by
  have hrd : r ≠ d := fun e => hr.fixed (e ▸ hd (e ▸ hr.known))
  have hpr := h.place_lt hr.known
  have known : ∀ {m}, (F.settle r c d).knows m = true → m ≠ d → F.knows m = true := by
    intro m hm hne
    simpa [hne] using hm
  have fixed : ∀ {m}, ¬ (loose m ∧ m ≠ d) → m ≠ d → ¬ loose m := fun hm hne hl => hm ⟨hl, hne⟩
  -- What is known and fixed is not the node that is settled.
  have keeps : ∀ {m}, F.knows m = true → ¬ loose m → m ≠ d := fun hk hl e => hl (e ▸ hd (e ▸ hk))
  have stands : ∀ {r'}, (F.settle r c d).Stands (fun m => loose m ∧ m ≠ d) r' →
      r' ≠ d ∧ F.Stands loose r' := by
    intro r' hr'
    have hro := hr'.root
    rw [owner?_settle] at hro
    split at hro
    · cases hro
    · next hne => exact ⟨hne, known hr'.known hne, fixed hr'.fixed hne, hro⟩
  have child : ∀ {r' k}, F.Stands loose r' →
      (F.settle r c d).child? r' k = if r' = r ∧ k = c then some d else F.child? r' k := by
    intro r' k hr'
    have hne := keeps hr'.known hr'.fixed
    rw [child?_eq, explicit?_settle]
    by_cases hp : F.place r' = F.place r
    · obtain rfl := h.place_inj hr' hr hp
      by_cases hk : k = c
      · simp [hk, Value.node?]
      · simp [hk, child?_eq]
    · have hrr : r' ≠ r := fun e => hp (congrArg F.place e)
      simp [hne, hp, hrr, child?_eq]
  constructor
  case serial_lt =>
    intro m hm
    rw [next_settle]
    by_cases hne : m = d
    · exact hne ▸ hs
    · exact h.serial_lt (known hm hne)
  case place_lt =>
    intro m hm
    rw [next_settle, place_settle]
    split
    · exact hpr
    · next hne => exact h.place_lt (known hm hne)
  case owner =>
    intro m o hm hl ho
    rw [owner?_settle] at ho
    rw [place_settle, place_settle]
    split at ho
    · next hne =>
      obtain rfl := Option.some.inj ho
      rw [if_pos hne, if_neg hrd]
      refine ⟨⟨?_, fun hlo => hr.fixed hlo.1, ?_⟩, rfl⟩
      · simp [hr.known]
      · rw [owner?_settle, if_neg hrd, hr.root]
    · next hne =>
      obtain ⟨hst, hp⟩ := h.owner (known hm hne) (fixed hl hne) ho
      have hod := keeps hst.known hst.fixed
      rw [if_neg hne, if_neg hod]
      refine ⟨⟨?_, fun hlo => hst.fixed hlo.1, ?_⟩, hp⟩
      · simp [hst.known]
      · rw [owner?_settle, if_neg hod, hst.root]
  case place_inj =>
    intro r₁ r₂ h₁ h₂ he
    obtain ⟨hne₁, hst₁⟩ := stands h₁
    obtain ⟨hne₂, hst₂⟩ := stands h₂
    rw [place_settle, place_settle, if_neg hne₁, if_neg hne₂] at he
    exact h.place_inj hst₁ hst₂ he
  case slot =>
    intro r' k m hr' hm
    obtain ⟨hne, hst⟩ := stands hr'
    rw [child hst] at hm
    split at hm
    · next hk =>
      obtain rfl := Option.some.inj hm
      refine ⟨by simp, fun hl => hl.2 rfl, ?_⟩
      rw [owner?_settle, if_pos rfl, hk.1]
    · obtain ⟨hmk, hml, hmo⟩ := h.slot hst hm
      refine ⟨by simp [hmk], fun hl => hml hl.1, ?_⟩
      rw [owner?_settle, if_neg (keeps hmk hml), hmo]
  case slot_inj =>
    intro r' k k' m hr' hm hm'
    obtain ⟨hne, hst⟩ := stands hr'
    -- The node in the new slot is new to the tree, so it is in no other slot.
    have fresh : ∀ {k}, F.child? r' k ≠ some d := by
      intro k hk
      obtain ⟨hdk, hdl, -⟩ := h.slot hst hk
      exact keeps hdk hdl rfl
    rw [child hst] at hm hm'
    split at hm
    · next hk =>
      split at hm'
      · next hk' => exact hk.2.trans hk'.2.symm
      · exact absurd (Option.some.inj hm ▸ hm') fresh
    · split at hm'
      · exact absurd (Option.some.inj hm' ▸ hm) fresh
      · exact h.slot_inj hst hm hm'
  case listed =>
    intro m o hm hl ho
    rw [owner?_settle] at ho
    split at ho
    · next hne =>
      obtain rfl := Option.some.inj ho
      exact ⟨c, by rw [child hr, if_pos ⟨rfl, rfl⟩, hne]⟩
    · next hne =>
      obtain ⟨hst, -⟩ := h.owner (known hm hne) (fixed hl hne) ho
      obtain ⟨k, hk⟩ := h.listed (known hm hne) (fixed hl hne) ho
      refine ⟨k, ?_⟩
      rw [child hst, if_neg ?_, hk]
      rintro ⟨rfl, rfl⟩
      rw [hc] at hk
      cases hk
  case flag =>
    intro m hm hf
    rw [cell_settle] at hf
    rw [owner?_settle]
    split at hf
    · cases hf
    · next hne =>
      rw [if_neg hne]
      exact h.flag (known hm hne) hf
  case typed =>
    intro a k v hv
    rw [storeAt_settle] at hv
    split at hv
    · rw [Store.get?_insert] at hv
      split at hv
      · next hk =>
        obtain rfl := Option.some.inj hv
        rw [hk, ht]
        rfl
      · exact h.typed hv
    · exact h.typed hv

/-- The nodes in some slots of a root are taken out. -/
theorem pluck (h : Sound S loose F) {r : Node τ} (hr : F.Stands loose r) (ks : List κ) :
    Sound S (fun m => loose m ∨ ∃ c ∈ ks, F.child? r c = some m)
      (F.withStoreAt (F.place r) ((F.storeOf r).eraseAll ks)) := by
  have fixed : ∀ {m}, ¬ (loose m ∨ ∃ c ∈ ks, F.child? r c = some m) → ¬ loose m :=
    fun hm hl => hm (Or.inl hl)
  have stands : ∀ {r'}, (F.withStoreAt (F.place r) ((F.storeOf r).eraseAll ks)).Stands
      (fun m => loose m ∨ ∃ c ∈ ks, F.child? r c = some m) r' → F.Stands loose r' :=
    fun hr' => ⟨hr'.known, fixed hr'.fixed, hr'.root⟩
  -- What is taken out has an owner, so that roots stay.
  have stays : ∀ {r'}, F.Stands loose r' →
      ¬ (loose r' ∨ ∃ c ∈ ks, F.child? r c = some r') := by
    rintro r' hr' (hl | ⟨c, -, hc⟩)
    · exact hr'.fixed hl
    · have hro := hr'.root
      rw [(h.slot hr hc).2.2] at hro
      cases hro
  have child : ∀ {r' k}, F.Stands loose r' →
      (F.withStoreAt (F.place r) ((F.storeOf r).eraseAll ks)).child? r' k =
        if r' = r ∧ k ∈ ks then none else F.child? r' k := by
    intro r' k hr'
    rw [child?_eq, explicit?_eq, place_withStoreAt, storeAt_withStoreAt]
    by_cases hp : F.place r' = F.place r
    · obtain rfl := h.place_inj hr' hr hp
      rw [if_pos rfl, Store.get?_eraseAll]
      by_cases hk : k ∈ ks
      · simp [hk]
      · simp [hk, child?_eq, explicit?_eq, storeOf]
    · have hrr : r' ≠ r := fun e => hp (congrArg F.place e)
      simp [hp, hrr, child?_eq, explicit?_eq]
  constructor
  case serial_lt => exact h.serial_lt
  case place_lt => exact h.place_lt
  case owner =>
    intro m o hm hl ho
    obtain ⟨hst, hp⟩ := h.owner hm (fixed hl) ho
    exact ⟨⟨hst.known, stays hst, hst.root⟩, hp⟩
  case place_inj => exact fun h₁ h₂ he => h.place_inj (stands h₁) (stands h₂) he
  case slot =>
    intro r' k m hr' hm
    have hst := stands hr'
    rw [child hst] at hm
    split at hm
    · cases hm
    · next hk =>
      obtain ⟨hmk, hml, hmo⟩ := h.slot hst hm
      refine ⟨hmk, ?_, hmo⟩
      rintro (hl | ⟨c, hc, hcm⟩)
      · exact hml hl
      · -- A node that was taken out of `r` had `r` as its owner, and was in one slot only.
        have hrr : r' = r := Option.some.inj (hmo.symm.trans (h.slot hr hcm).2.2)
        subst hrr
        exact hk ⟨rfl, h.slot_inj hst hm hcm ▸ hc⟩
  case slot_inj =>
    intro r' k k' m hr' hm hm'
    have hst := stands hr'
    rw [child hst] at hm hm'
    split at hm
    · cases hm
    · split at hm'
      · cases hm'
      · exact h.slot_inj hst hm hm'
  case listed =>
    intro m o hm hl ho
    obtain ⟨hst, -⟩ := h.owner hm (fixed hl) ho
    obtain ⟨k, hk⟩ := h.listed hm (fixed hl) ho
    refine ⟨k, ?_⟩
    rw [child hst, if_neg ?_, hk]
    rintro ⟨rfl, hks⟩
    exact hl (Or.inr ⟨k, hks, hk⟩)
  case flag => exact h.flag
  case typed =>
    intro a k v hv
    rw [storeAt_withStoreAt] at hv
    split at hv
    · rw [Store.get?_eraseAll] at hv
      split at hv
      · cases hv
      · exact h.typed hv
    · exact h.typed hv

/-- A whole tree is made loose. -/
theorem uproot (h : Sound S loose F) {r : Node τ} (hr : F.Stands loose r) :
    Sound S (fun m => loose m ∨ m = r ∨ F.owner? m = some r) F := by
  have fixed : ∀ {m}, ¬ (loose m ∨ m = r ∨ F.owner? m = some r) → ¬ loose m := fun hm hl => hm (Or.inl hl)
  have stands : ∀ {r'}, F.Stands (fun m => loose m ∨ m = r ∨ F.owner? m = some r) r' →
      F.Stands loose r' := fun hr' => ⟨hr'.known, fixed hr'.fixed, hr'.root⟩
  constructor
  case serial_lt => exact h.serial_lt
  case place_lt => exact h.place_lt
  case owner =>
    intro m o hm hl ho
    obtain ⟨hst, hp⟩ := h.owner hm (fixed hl) ho
    refine ⟨⟨hst.known, ?_, hst.root⟩, hp⟩
    rintro (hlo | rfl | hor)
    · exact hst.fixed hlo
    · exact hl (Or.inr (Or.inr ho))
    · rw [hst.root] at hor
      cases hor
  case place_inj => exact fun h₁ h₂ he => h.place_inj (stands h₁) (stands h₂) he
  case slot =>
    intro r' k m hr' hm
    obtain ⟨hmk, hml, hmo⟩ := h.slot (stands hr') hm
    refine ⟨hmk, ?_, hmo⟩
    rintro (hl | rfl | hor)
    · exact hml hl
    · rw [hr.root] at hmo
      cases hmo
    · -- It is of the tree of `r`, so it stands in a slot of `r`, which is loose itself.
      obtain rfl := Option.some.inj (hmo.symm.trans hor)
      exact hr'.fixed (Or.inr (Or.inl rfl))
  case slot_inj => exact fun hr' hm hm' => h.slot_inj (stands hr') hm hm'
  case listed => exact fun hm hl ho => h.listed hm (fixed hl) ho
  case flag => exact h.flag
  case typed => exact h.typed

end Sound

end Forest

end LayeredConfig
