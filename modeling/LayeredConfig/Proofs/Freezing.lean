import LayeredConfig.Proofs.Session

/-!
# Frozen trees

A frozen tree stays as it is for ever. Nothing takes the flag back: the cells of the tree are written by no
operation, since each of them is refused on the tree, and no tree shares its store. So a frozen tree may be
handed out, as a source or to be read, without a copy.
-/

namespace LayeredConfig

variable {τ κ : Type} [DecidableEq τ] [DecidableEq κ] {S : Schema τ κ}

namespace Forest

/-- Whatever would change the tree of the node `n` is refused since the tree is frozen, and changes nothing. -/
structure RefusesChange (S : Schema τ κ) (F : Forest τ κ) (n : Node τ) : Prop where
  set : ∀ c v, F.set S n c v = (.error (.frozen (F.label S n)), F)
  clear : ∀ c, F.clear S n c = (.error (.frozen (F.label S n)), F)
  detach : ∀ {c t}, S.slotType? c = some t → F.detach S n c = (.error (.frozen (F.label S n)), F)
  apply : ∀ source, F.apply S n source = (.error (.frozen (F.label S n)), F)
  applyAll : ∀ sources, F.applyAll S n sources = (.error (.frozen (F.label S n)), F)

variable {F : Forest τ κ} {n : Node τ}

theorem refusesChange (hf : F.isFrozen n = true) : RefusesChange S F n := by
  have absurdly : ∀ {P : Prop}, F.isFrozen n = false → P := by
    intro P hf'
    rw [hf] at hf'
    cases hf'
  have hall : ∀ sources, F.applyAll S n sources = (.error (.frozen (F.label S n)), F) := by
    intro sources
    rcases applyAll_cases S F n sources with ⟨-, he⟩ | ⟨hf', -⟩
    · exact he
    · exact absurdly hf'
  constructor
  case set =>
    intro c v
    cases set_cases S F n c v with
    | frozen _ he => exact he
    | refused _ hf' _ => exact absurdly hf'
    | leaf hf' _ _ _ => exact absurdly hf'
    | same _ _ hf' _ _ _ => exact absurdly hf'
    | attached _ _ hf' _ _ _ _ => exact absurdly hf'
  case clear =>
    intro c
    rcases clear_cases S F n c with ⟨-, he⟩ | ⟨hf', -⟩ | ⟨hf', -⟩
    · exact he
    · exact absurdly hf'
    · exact absurdly hf'
  case detach =>
    intro c t ht
    rcases detach_cases S F n c with ⟨hc, -⟩ | ⟨-, he⟩ | ⟨hf', -⟩ | ⟨d, hf', -⟩
    · rw [ht] at hc
      cases hc
    · exact he
    · exact absurdly hf'
    · exact absurdly hf'
  case apply => exact fun source => hall [source]
  case applyAll => exact hall

end Forest

namespace Session

open Forest

variable {W W' : Session τ κ} {r : Node τ}

/-- What a run leaves of a frozen tree: all of it. -/
structure Preserved (S : Schema τ κ) (r : Node τ) (F G : Forest τ κ) : Prop where
  isTop : G.IsTop r
  isFrozen : G.isFrozen r = true
  store : G.storeOf r = F.storeOf r
  attached : ∀ {n}, F.owner? n = some r → G.owner? n = some r
  refuses : ∀ {n}, G.rootOf n = r → RefusesChange S G n
  freeze : G.freeze S r = (.ok (), G)

/-- **A frozen tree is preserved by every run of every client.** -/
theorem preserved_of_isFrozen (h : Reachable S W) (hr : W.forest.IsTop r)
    (hf : W.forest.isFrozen r = true) (hs : Steps S W W') : Preserved S r W.forest W'.forest := by
  have hkeeps := hs.keeps h.orderly hr hf
  obtain ⟨hr', hf'⟩ := hkeeps.isTop hr
  obtain ⟨hstore, hattached⟩ := hkeeps.tree h.orderly.coherent hr
  rw [hf] at hf'
  constructor
  case isTop => exact hr'
  case isFrozen => exact hf'
  case store => exact hstore
  case attached => exact fun {n} hn => hattached n hn
  case refuses => exact fun hn => refusesChange ((isFrozen_congr (hn.trans hr'.rootOf_eq.symm)).trans hf')
  case freeze =>
    rcases freeze_cases S W'.forest r with ⟨e, he⟩ | ⟨-, he⟩
    · rw [Forest.freeze, requireRoot, hr'.root] at he
      cases he
    · rw [he, markFrozen_of_isFrozen hr' hf']

def sealed : Session NodeType Key := ⟨(Operation.freeze ⟨1, .tree⟩).run catalog joined.forest, joined.drafts⟩

def resealed : Session NodeType Key :=
  ⟨(Operation.set ⟨2, .tree⟩ (.specimen .label) (.text "x")).run catalog sealed.forest, sealed.drafts⟩

theorem preserved_resealed :
    (Reachable catalog sealed ∧ sealed.forest.IsTop ⟨1, .tree⟩ ∧ sealed.forest.isFrozen ⟨1, .tree⟩ = true ∧
      Steps catalog sealed resealed) ∧
      Preserved catalog ⟨1, .tree⟩ sealed.forest resealed.forest := by
  have hreach : Reachable catalog sealed := reachable_joined.call (.freeze ⟨1, .tree⟩) (by decide)
  have htop : sealed.forest.IsTop ⟨1, .tree⟩ := ⟨by decide, fun hf => hf, by decide⟩
  have hnone : Steps catalog sealed sealed := Steps.refl
  have hsteps : Steps catalog sealed resealed :=
    hnone.call (.set ⟨2, .tree⟩ (.specimen .label) (.text "x")) (by decide)
  exact ⟨⟨hreach, htop, by decide, hsteps⟩, preserved_of_isFrozen hreach htop (by decide) hsteps⟩

end Session

end LayeredConfig
