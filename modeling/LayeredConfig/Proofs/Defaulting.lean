import Mathlib.Data.List.Nodup
import LayeredConfig.Job.Defaults
import LayeredConfig.Proofs.Resolving
import LayeredConfig.Proofs.SameValues

/-!
# Defaults of jobs

A job that is asked for the content of a characteristic answers with its own, else with the default of the one
table that lists the characteristic, else that there is none. Nothing else can come of it
(`Defaults.defaulted`): what a job stores fits its characteristics, however it came to be stored, and so does
every entry of the tables (`Defaults.proper_of_mem_entries`).

Three entries are derived, and of the node that is asked they read its strategy and nothing else. The nodes of a
tree have one store between them, so that it does not matter which of them is asked.
-/

namespace LayeredConfig

variable {τ κ : Type} [DecidableEq τ] [DecidableEq κ] {S : Schema τ κ}

/-! ## Contents -/

namespace Resolver

variable {r : Resolver τ κ} {F : Forest τ κ} {n : Node τ} {c : κ} {d : Default τ κ}

theorem resolveContent_of_has (h : F.has n c = true) {x : (S.format c).Content} (hx : F.get? S n c = some x) :
    r.resolveContent S F n c = .ok x := by
  rw [Forest.get?, Option.bind_eq_some_iff] at hx
  obtain ⟨v, hv, hread⟩ := hx
  rw [resolveContent, resolve_of_has h, hv]
  simp only [Option.elim_some, hread]

theorem resolveContent_of_default (h : F.has n c = false) (hd : r.default? c = some d)
    (hfits : (S.format c).Fits (d.value F n)) :
    ∃ x, r.resolveContent S F n c = .ok x ∧ (S.format c).write x = d.value F n := by
  obtain ⟨x, hx⟩ := Option.isSome_iff_exists.mp (Format.isSome_read_iff.mpr hfits)
  refine ⟨x, ?_, Format.write_of_read _ _ x hx⟩
  rw [resolveContent, resolve_of_not_has h, hd]
  simp only [Option.elim_some, hx]

theorem resolveContent_of_none (h : F.has n c = false) (hd : r.default? c = none) :
    r.resolveContent S F n c = .error (.unresolved c) := by
  rw [resolveContent, resolve_of_not_has h, hd]
  rfl

omit [DecidableEq τ] in
/-- If no characteristic is listed twice, every entry counts. -/
theorem default?_of_nodup (h : ((r.tables.flatMap ResolverTable.entries).map Prod.fst).Nodup)
    {t : ResolverTable τ κ} (ht : t ∈ r.tables) (hd : (c, d) ∈ t.entries) : r.default? c = some d := by
  cases hfound : r.default? c with
  | none => exact absurd ⟨d, hd⟩ (default?_eq_none_iff.mp hfound t ht)
  | some d' =>
      obtain ⟨before, t', after, hrow, -, earlier, later, hentries, -⟩ := default?_eq_some_iff.mp hfound
      have ht' : t' ∈ r.tables := by
        rw [hrow]
        exact List.mem_append_right _ (List.mem_cons_self ..)
      have hd' : (c, d') ∈ t'.entries := by
        rw [hentries]
        exact List.mem_append_right _ (List.mem_cons_self ..)
      have hpair := List.inj_on_of_nodup_map h (List.mem_flatMap.mpr ⟨t', ht', hd'⟩)
        (List.mem_flatMap.mpr ⟨t, ht, hd⟩) rfl
      exact congrArg (fun e => some e.2) hpair

end Resolver

/-- Under what is seen as it is stored, nodes see the same that store the same. -/
theorem Forest.value?_congr_of_straight {F : Forest τ κ} {n m : Node τ} {c : κ} (hc : Straight S c)
    (h : F.explicit? n c = F.explicit? m c) : F.value? S n c = F.value? S m c := by
  show S.resolve (F.view n) c (F.explicit? n c) = S.resolve (F.view m) c (F.explicit? m c)
  rw [h, Schema.resolve, Schema.resolve]
  rcases hc with hc | ⟨w, hc⟩
  · rw [hc]
  · rw [hc]

namespace Defaults

open Forest Session Job

variable {W J : Session NodeType Key} {F G : Forest NodeType Key} {n m : Node NodeType} {j : Job} {k c : Key}
  {host : Host}

/-! ## The strategy -/

/-- The strategy of a node is the one that it stores, and throughput if it stores none. -/
theorem strategy_cases (h : TypeDiscipline catalog F) (n : Node NodeType) :
    F.explicit? n (.run .runStrategy) = some (.symbol (Vocabulary.symbol (strategy F n))) ∨
      F.explicit? n (.run .runStrategy) = none ∧ strategy F n = .throughput := by
  have hstraight : Straight catalog (.run .runStrategy) := straight_of_isStraight rfl
  cases hv : F.explicit? n (.run .runStrategy) with
  | none =>
      have hvalue : F.value? catalog n (.run .runStrategy) =
          some (.symbol (Vocabulary.symbol RunStrategy.throughput)) := by
        show catalog.resolve (F.view n) (.run .runStrategy) (F.explicit? n (.run .runStrategy)) = _
        rw [hv]
        rfl
      refine Or.inr ⟨rfl, ?_⟩
      rw [strategy, hvalue]
      rfl
  | some v =>
      refine Or.inl ?_
      have hfits : Format.Fits (.symbol (Vocabulary.enumeration RunStrategy)) v := h.fits hv
      cases v with
      | symbol s =>
          obtain ⟨hkind, hmem⟩ := hfits
          obtain ⟨st, -, hst⟩ := List.mem_map.mp hmem
          obtain rfl : s = Vocabulary.symbol st := by
            cases s
            cases hkind
            cases hst
            rfl
          rw [strategy, value?_of_straight hstraight hv]
          cases st <;> rfl
      | _ => exact hfits.elim

/-! ## Entries -/

/-- What an entry of the tables is fit for. -/
structure Proper (e : Entry) : Prop where
  fits : ∀ F n, (catalog.format e.1).Fits (e.2.value F n)
  /-- Of the node that is asked, the strategy is all that counts. -/
  steady : ∀ {F G n m}, strategy F n = strategy G m → e.2.value F n = e.2.value G m

theorem proper_constant (k : Key) (x : (catalog.format k).Content) : Proper (constant k x) where
  fits := fun _ _ => Format.fits_write _ x
  steady := fun _ => rfl

theorem fits_symbol {α : Type} [Vocabulary α] (hk : catalog.format k = .symbol (Vocabulary.enumeration α))
    {a : α} (ha : a ∈ (Vocabulary.members : List α)) :
    (catalog.format k).Fits (.symbol (Vocabulary.symbol a)) := by
  rw [hk]
  exact ⟨rfl, List.mem_map_of_mem ha⟩

theorem proper_member {α : Type} [Vocabulary α] (hk : catalog.format k = .symbol (Vocabulary.enumeration α))
    {a : α} (ha : a ∈ (Vocabulary.members : List α)) : Proper (member k a) where
  fits := fun _ _ => fits_symbol hk ha
  steady := fun _ => rfl

theorem proper_derived {v : RunStrategy → Value NodeType} (hv : ∀ st, (catalog.format k).Fits (v st)) :
    Proper (k, .derived fun F n => v (strategy F n)) where
  fits := fun F n => hv (strategy F n)
  steady := fun h => congrArg v h

theorem proper_environment (host : Host) : ∀ e ∈ (environment host).entries, Proper e := by
  have hplatform : host.platform ∈ (Vocabulary.members : List Platform) := by
    cases host.platform <;> decide
  simp only [environment, List.forall_mem_cons]
  refine ⟨proper_member rfl hplatform, proper_member rfl (by decide), ?_⟩
  and_intros
  all_goals first | exact proper_constant _ _ | exact List.forall_mem_nil _

theorem proper_engine : ∀ e ∈ engine.entries, Proper e := by
  have hunroll := proper_derived (k := .run .unrollFactor) (v := fun st => .int (unrollFactor st).toInt)
    fun st => Format.fits_write .int32 (unrollFactor st)
  have herror := proper_derived (k := .accuracy .maxRelativeError) (v := fun st => .float (maxRelativeError st))
    fun st => trivial
  have houtlier := proper_derived (k := .accuracy .outlierMode)
    (v := fun st => .symbol (Vocabulary.symbol (outlierMode st)))
    fun st => fits_symbol rfl (by cases st <;> decide)
  simp only [engine, List.forall_mem_cons]
  refine ⟨proper_member rfl (by decide), ?_⟩
  and_intros
  all_goals first | exact proper_constant _ _ | exact List.forall_mem_nil _ | assumption

theorem proper_infrastructure : ∀ e ∈ infrastructure.entries, Proper e := by
  simp only [infrastructure, List.forall_mem_cons]
  and_intros
  all_goals first | exact proper_constant _ _ | exact List.forall_mem_nil _

/-- The three tables in a row. -/
theorem tables_resolver (host : Host) : (resolver host).tables = [environment host, engine, infrastructure] := rfl

/-- **Every entry of the tables fits its characteristic, and reads nothing but the strategy.** -/
theorem proper_of_mem_entries {t : ResolverTable NodeType Key} (ht : t ∈ (resolver host).tables) {e : Entry}
    (he : e ∈ t.entries) : Proper e := by
  rw [tables_resolver] at ht
  rcases List.mem_cons.mp ht with rfl | ht
  · exact proper_environment host e he
  · rcases List.mem_cons.mp ht with rfl | ht
    · exact proper_engine e he
    · rw [List.mem_singleton.mp ht] at he
      exact proper_infrastructure e he

/-- No characteristic has two entries. -/
theorem nodup_entries (host : Host) :
    (((resolver host).tables.flatMap ResolverTable.entries).map Prod.fst).Nodup := by
  -- The characteristics that are listed do not depend on the host.
  have hkeys : ((resolver host).tables.flatMap ResolverTable.entries).map Prod.fst =
      ((resolver ⟨.anyCpu, 0⟩).tables.flatMap ResolverTable.entries).map Prod.fst := rfl
  rw [hkeys]
  decide +kernel

theorem default?_of_mem_entries {t : ResolverTable NodeType Key} (ht : t ∈ (resolver host).tables)
    {d : Default NodeType Key} (hd : (k, d) ∈ t.entries) : (resolver host).default? k = some d :=
  Resolver.default?_of_nodup (nodup_entries host) ht hd

/-- A default comes of some entry. -/
theorem proper_of_default? {d : Default NodeType Key} (hd : (resolver host).default? k = some d) :
    Proper (k, d) := by
  obtain ⟨before, t, after, hrow, -, earlier, later, hentries, -⟩ := Resolver.default?_eq_some_iff.mp hd
  have ht : t ∈ (resolver host).tables := by
    rw [hrow]
    exact List.mem_append_right _ (List.mem_cons_self ..)
  refine proper_of_mem_entries ht ?_
  rw [hentries]
  exact List.mem_append_right _ (List.mem_cons_self ..)

/-- The defaults that are derived from a strategy. -/
def derived? (st : RunStrategy) : Key → Option (Value NodeType)
  | .run .unrollFactor => some (.int (unrollFactor st).toInt)
  | .accuracy .maxRelativeError => some (.float (maxRelativeError st))
  | .accuracy .outlierMode => some (.symbol (Vocabulary.symbol (outlierMode st)))
  | _ => none

theorem default?_of_derived? (host : Host) {st : RunStrategy} {v : Value NodeType}
    (h : derived? st c = some v) :
    ∃ d, (resolver host).default? c = some d ∧ ∀ F n, strategy F n = st → d.value F n = v := by
  unfold derived? at h
  split at h
  · cases h
    exact ⟨_, rfl, fun F n hst => by rw [← hst]; rfl⟩
  · cases h
    exact ⟨_, rfl, fun F n hst => by rw [← hst]; rfl⟩
  · cases h
    exact ⟨_, rfl, fun F n hst => by rw [← hst]; rfl⟩
  · cases h

/-! ## What jobs answer -/

/-- The id of a job is found by its presentation; all else that jobs know is seen as it is stored. -/
theorem eq_id_or_straight (hk : catalog.reaches .job k = true) : k = .id ∨ Straight catalog k := by
  have hall : ∀ t ∈ parts, ∀ c ∈ catalog.declarations t, c = .id ∨ isStraight c = true := by decide
  exact (forall_known hall hk).imp id straight_of_isStraight

/-- What becomes of a request for the content of a characteristic that jobs know. -/
structure Defaulted (host : Host) (F : Forest NodeType Key) (j : Job) : Prop where
  /-- What the job stores is what it answers; of the id, what is seen of it. -/
  own : ∀ {c}, catalog.reaches .job c = true → F.has j.val c = true →
    ∃ x, F.get? catalog j.val c = some x ∧ (resolver host).resolveContent catalog F j.val c = .ok x ∧
      (c ≠ .id → F.explicit? j.val c = some ((catalog.format c).write x))
  supplied : ∀ {c d t}, F.has j.val c = false → t ∈ [environment host, engine, infrastructure] →
    (c, d) ∈ t.entries → ∃ x, (resolver host).resolveContent catalog F j.val c = .ok x ∧
      (catalog.format c).write x = d.value F j.val
  unsupplied : ∀ {c}, F.has j.val c = false →
    (∀ t ∈ [environment host, engine, infrastructure], ¬ t.Lists c) →
    (resolver host).resolveContent catalog F j.val c = .error (.unresolved c) ∧
      (Failure.unresolved c : Failure NodeType Key).message catalog =
        "there is no default resolver for " ++ catalog.fullName c
  /-- Whatever is answered has the type that is asked for. -/
  typed : ∀ {c e}, catalog.reaches .job c = true →
    (resolver host).resolveContent catalog F j.val c = .error e → e = .unresolved c
  strategy : F.explicit? j.val (.run .runStrategy) = some (.symbol (Vocabulary.symbol (strategy F j.val))) ∨
    F.explicit? j.val (.run .runStrategy) = none ∧ strategy F j.val = .throughput
  /-- Whichever node of the tree is asked, the derived defaults follow the strategy of the job. -/
  derived : ∀ {n c v}, F.knows n = true → F.rootOf n = F.rootOf j.val → F.has j.val c = false →
    derived? (Defaults.strategy F j.val) c = some v →
    ∃ x, (resolver host).resolveContent catalog F n c = .ok x ∧ (catalog.format c).write x = v
  /-- All nodes of the tree answer alike, except about their ids. -/
  alike : ∀ {n c}, F.knows n = true → F.rootOf n = F.rootOf j.val → catalog.reaches .job c = true → c ≠ .id →
    (resolver host).resolveContent catalog F n c = (resolver host).resolveContent catalog F j.val c

theorem strategy_eq_of_explicit?_eq (h : F.explicit? n (.run .runStrategy) = F.explicit? m (.run .runStrategy)) :
    strategy F n = strategy F m := by
  rw [strategy, strategy, value?_congr_of_straight (straight_of_isStraight rfl) h]

theorem own_of_has (host : Host) (h : TypeDiscipline catalog F) (hc : catalog.reaches .job c = true)
    (hhas : F.has n c = true) :
    ∃ x, F.get? catalog n c = some x ∧ (resolver host).resolveContent catalog F n c = .ok x ∧
      (c ≠ .id → F.explicit? n c = some ((catalog.format c).write x)) := by
  rcases eq_id_or_straight hc with rfl | hstraight
  · exact ⟨catalog.idText (F.view n), rfl, Resolver.resolveContent_of_has hhas rfl, fun hne => absurd rfl hne⟩
  · obtain ⟨x, hx, hstored⟩ := h.reads hstraight hhas
    exact ⟨x, hx, Resolver.resolveContent_of_has hhas hx, fun _ => hstored⟩

/-- **No answer has another type than the one that is asked for.** -/
theorem eq_unresolved_of_error {e : Failure NodeType Key} (h : TypeDiscipline catalog F)
    (hc : catalog.reaches .job c = true) (he : (resolver host).resolveContent catalog F n c = .error e) :
    e = .unresolved c := by
  cases hhas : F.has n c with
  | true =>
      obtain ⟨x, -, hx, -⟩ := own_of_has host h hc hhas
      rw [hx] at he
      cases he
  | false =>
      cases hd : (resolver host).default? c with
      | some d =>
          obtain ⟨x, hx, -⟩ := Resolver.resolveContent_of_default hhas hd ((proper_of_default? hd).fits _ _)
          rw [hx] at he
          cases he
      | none =>
          rw [Resolver.resolveContent_of_none hhas hd] at he
          exact (Except.error.inj he).symm

/-- Nodes that store the same are answered alike. -/
theorem resolve_congr (hc : Straight catalog c) (h : ∀ k, F.explicit? n k = F.explicit? m k) :
    (resolver host).resolve catalog F n c = (resolver host).resolve catalog F m c := by
  have hhas : F.has n c = F.has m c := congrArg Option.isSome (h c)
  cases hm : F.has m c with
  | true =>
      rw [Resolver.resolve_of_has (hhas.trans hm), Resolver.resolve_of_has hm,
        value?_congr_of_straight hc (h c)]
  | false =>
      rw [Resolver.resolve_of_not_has (hhas.trans hm), Resolver.resolve_of_not_has hm]
      cases hd : (resolver host).default? c with
      | none => rfl
      | some d => exact congrArg Except.ok ((proper_of_default? hd).steady (strategy_eq_of_explicit?_eq (h _)))

/-- **A job answers with what it stores, else with the one default that there is, else that there is none.** -/
theorem defaulted (hJ : JobReachable J) (hj : J.Holds j.val) (host : Host) : Defaulted host J.forest j := by
  have htyped := hJ.reachable.typeDiscipline
  have hcoh := hJ.reachable.orderly.coherent
  -- The nodes of a tree store what its root stores.
  have hsame : ∀ {n}, J.forest.knows n = true → J.forest.rootOf n = J.forest.rootOf j.val →
      ∀ k, J.forest.explicit? n k = J.forest.explicit? j.val k := by
    intro n hn hroot k
    rw [hcoh.explicit?_rootOf hn, hroot, ← hcoh.explicit?_rootOf hj.1]
  constructor
  case own => exact own_of_has host htyped
  case supplied =>
    intro c d t hhas ht hd
    rw [← tables_resolver host] at ht
    exact Resolver.resolveContent_of_default hhas (default?_of_mem_entries ht hd)
      ((proper_of_mem_entries ht hd).fits _ _)
  case unsupplied =>
    intro c hhas hnone
    exact ⟨Resolver.resolveContent_of_none hhas (Resolver.default?_eq_none_iff.mpr hnone), rfl⟩
  case typed => exact eq_unresolved_of_error htyped
  case strategy => exact strategy_cases htyped j.val
  case derived =>
    intro n c v hn hroot hhas hv
    obtain ⟨d, hd, hvalue⟩ := default?_of_derived? host hv
    have hempty : J.forest.has n c = false := by
      rw [has_eq_false_iff] at hhas ⊢
      rw [hsame hn hroot, hhas]
    obtain ⟨x, hx, hwrite⟩ := Resolver.resolveContent_of_default hempty hd ((proper_of_default? hd).fits _ n)
    refine ⟨x, hx, hwrite.trans (hvalue _ n ?_)⟩
    exact strategy_eq_of_explicit?_eq (hsame hn hroot _)
  case alike =>
    intro n c hn hroot hc hid
    have hstraight := (eq_id_or_straight hc).resolve_left hid
    rw [Resolver.resolveContent, Resolver.resolveContent, resolve_congr hstraight (hsame hn hroot)]

/-- A job that is launched three times, with a node in a slot that is told to start cold. -/
def chilly : Session NodeType Key :=
  ⟨[.bare .job, .set ⟨1, .job⟩ (.run .launchCount) (.int 3), .childOrNew ⟨1, .job⟩ (.job .run),
      .set ⟨2, .run⟩ (.run .runStrategy) (.symbol (Vocabulary.symbol RunStrategy.coldStart))].foldl
    (Operation.run catalog) .empty, []⟩

theorem jobReachable_chilly : JobReachable chilly := by
  refine JobReachable.run .refl ?_
  decide

theorem defaulted_chilly :
    (JobReachable chilly ∧ chilly.Holds (⟨1, .job⟩ : Node NodeType)) ∧
      Defaulted ⟨.x64, 255⟩ chilly.forest ⟨⟨1, .job⟩, rfl⟩ := by
  have hj : chilly.Holds (⟨1, .job⟩ : Node NodeType) := by decide
  exact ⟨⟨jobReachable_chilly, hj⟩, defaulted jobReachable_chilly hj _⟩

end Defaults

end LayeredConfig
