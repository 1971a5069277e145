import LayeredConfig.Proofs.Literals
import Mathlib.Data.List.Induction

/-!
# Source literals lose nothing

Of two values that a characteristic accepts, neither is written like the other (`Schema.sourceTells`), as long as
no floating point number is in them. Without symbols the literals are read from the front. A symbol is written
`Kind::Name`, and its name has no end; so a list of symbols is read from behind, where the last item begins with
the last separator (`Format.append_literal_injective`). Nothing need be known of the kind: where separators are in
it, the last of them stands in the last symbol of both lists.

The name itself must not have a separator in it. An enumeration whose members are `A` and `A, E::A` writes two
symbols like one (`Schema.not_sourceTells_marks`).
-/

namespace LayeredConfig

/-! ## The last separator -/

/-- What stands behind the last separator is told from what stands before it. -/
theorem separator_append_injective {a b x y : List Char} (hx : ¬ [',', ' '] <:+: x) (hy : ¬ [',', ' '] <:+: y)
    (h : a ++ ',' :: ' ' :: x = b ++ ',' :: ' ' :: y) : a = b ∧ x = y := by
  have hback : ∀ {z : List Char}, ¬ [',', ' '] <:+: z → ¬ [' ', ','] <:+: z.reverse := fun hz hi =>
    hz (List.reverse_infix.mp hi)
  have hreverse : x.reverse ++ ' ' :: ',' :: a.reverse = y.reverse ++ ' ' :: ',' :: b.reverse := by
    simpa using congrArg List.reverse h
  obtain ⟨hxy, hab⟩ := append_separator_injective (by decide) (hback hx) (hback hy) hreverse
  exact ⟨List.reverse_inj.mp hab, List.reverse_inj.mp hxy⟩

theorem exists_last_separator {z : List Char} (h : [',', ' '] <:+: z) :
    ∃ a x, z = a ++ ',' :: ' ' :: x ∧ ¬ [',', ' '] <:+: x := by
  induction z with
  | nil => exact absurd h (by decide)
  | cons c z ih =>
      by_cases hz : [',', ' '] <:+: z
      · obtain ⟨a, x, rfl, hx⟩ := ih hz
        exact ⟨c :: a, x, rfl, hx⟩
      · obtain ⟨x, hx⟩ := (List.infix_cons_iff.mp h).resolve_right hz
        obtain ⟨rfl, rfl⟩ := List.cons.inj hx
        exact ⟨[], x, rfl, fun hi => hz (hi.trans (List.suffix_cons _ _).isInfix)⟩

/-- A separator does not lie across a character that is not in it. -/
theorem separator_infix_append_cons {c : Char} (hc : c ≠ ',' ∧ c ≠ ' ') {x y : List Char}
    (h : [',', ' '] <:+: x ++ c :: y) : [',', ' '] <:+: x ∨ [',', ' '] <:+: y := by
  induction x with
  | nil =>
      rcases List.infix_cons_iff.mp h with ⟨r, hr⟩ | h
      · exact absurd (List.cons.inj hr).1.symm hc.1
      · exact Or.inr h
  | cons a x ih =>
      rcases List.infix_cons_iff.mp h with ⟨r, hr⟩ | h
      · rcases x with - | ⟨b, x⟩
        · exact absurd (List.cons.inj (List.cons.inj hr).2).1.symm hc.2
        · obtain ⟨rfl, rfl, -⟩ : ',' = a ∧ ' ' = b ∧ r = _ := by simpa using hr
          exact Or.inl ⟨[], x, rfl⟩
      · exact (ih h).imp_left fun hx => hx.trans (List.suffix_cons _ _).isInfix

theorem separator_infix_append {x y : List Char} (hx : ',' ∉ x) (h : [',', ' '] <:+: x ++ y) : [',', ' '] <:+: y := by
  induction x with
  | nil => exact h
  | cons a x ih =>
      obtain ⟨ha, hx⟩ := not_or.mp (mt List.mem_cons.mpr hx)
      rcases List.infix_cons_iff.mp h with ⟨r, hr⟩ | h
      · exact absurd (List.cons.inj hr).1 ha
      · exact ih hx h

/-! ## Symbols -/

/-- What can stand before an item of a list: behind a separator, which may as well be that of a list around it,
only the brackets that open lists. -/
def Opens (s : List Char) : Prop := ∃ a x, s = a ++ ',' :: ' ' :: x ∧ ∀ c ∈ x, c ≠ ',' ∧ c ≠ ':' ∧ c ≠ ']'

theorem opens_separator (a : List Char) : Opens (a ++ [',', ' ']) := ⟨a, [], rfl, by simp⟩

theorem Opens.bracket {s : List Char} (hs : Opens s) : Opens (s ++ "vec![".toList) := by
  obtain ⟨a, x, rfl, hx⟩ := hs
  have hvec : ∀ c ∈ "vec![".toList, c ≠ ',' ∧ c ≠ ':' ∧ c ≠ ']' := by simp
  exact ⟨a, x ++ "vec![".toList, by simp, fun c hc => (List.mem_append.mp hc).elim (hx c) (hvec c)⟩

def symbolText (k m : List Char) : List Char := k ++ ':' :: ':' :: m

theorem not_separator_infix_symbolText {k m : List Char} (hk : ¬ [',', ' '] <:+: k) (hm : ¬ [',', ' '] <:+: m) :
    ¬ [',', ' '] <:+: symbolText k m := by
  intro h
  rcases separator_infix_append_cons (by decide) h with h | h
  · exact hk h
  · rcases separator_infix_append_cons (x := []) (by decide) h with h | h
    · exact absurd h (by decide)
    · exact hm h

theorem not_separator_infix_append_symbolText {x k m : List Char} (hx : ∀ c ∈ x, c ≠ ',' ∧ c ≠ ':' ∧ c ≠ ']')
    (hk : ¬ [',', ' '] <:+: k) (hm : ¬ [',', ' '] <:+: m) : ¬ [',', ' '] <:+: x ++ symbolText k m := fun h =>
  not_separator_infix_symbolText hk hm (separator_infix_append (fun hc => (hx _ hc).1 rfl) h)

theorem takeWhile_symbolText (k m : List Char) :
    (symbolText k m).takeWhile (· != ':') = k.takeWhile (· != ':') := by
  unfold symbolText
  induction k with
  | nil => rfl
  | cons c k ih => rw [List.cons_append, List.takeWhile_cons, List.takeWhile_cons, ih]

/-- Behind the last separator there is a colon of the last symbol. -/
theorem Opens.exists_last_separator {s : List Char} (hs : Opens s) (k : List Char) {m : List Char}
    (hm : ¬ [',', ' '] <:+: m) :
    ∃ a x, s ++ symbolText k m = a ++ ',' :: ' ' :: x ∧ ¬ [',', ' '] <:+: x ∧ ':' ∈ x := by
  by_cases hk : [',', ' '] <:+: k
  · obtain ⟨a, x, rfl, hx⟩ := LayeredConfig.exists_last_separator hk
    exact ⟨s ++ a, symbolText x m, by simp [symbolText], not_separator_infix_symbolText hx hm,
      List.mem_append_right _ (List.mem_cons_self ..)⟩
  · obtain ⟨a, x, rfl, hx⟩ := hs
    exact ⟨a, x ++ symbolText k m, by simp, not_separator_infix_append_symbolText hx hk hm,
      List.mem_append_right _ (List.mem_append_right _ (List.mem_cons_self ..))⟩

/-- **A symbol is read off behind whatever stands before it.** -/
theorem Opens.append_symbolText_injective {s t k m n : List Char} (hs : Opens s) (ht : Opens t)
    (hm : ¬ [',', ' '] <:+: m) (hn : ¬ [',', ' '] <:+: n) (h : s ++ symbolText k m = t ++ symbolText k n) :
    s = t ∧ m = n := by
  by_cases hk : [',', ' '] <:+: k
  · -- The last separator is the last one in the kind.
    obtain ⟨a, x, rfl, hx⟩ := LayeredConfig.exists_last_separator hk
    have hlast : (s ++ a) ++ ',' :: ' ' :: symbolText x m = (t ++ a) ++ ',' :: ' ' :: symbolText x n := by
      simpa [symbolText] using h
    obtain ⟨hst, hmn⟩ := separator_append_injective (not_separator_infix_symbolText hx hm)
      (not_separator_infix_symbolText hx hn) hlast
    exact ⟨List.append_cancel_right hst, by simpa [symbolText] using hmn⟩
  · obtain ⟨a, x, rfl, hx⟩ := hs
    obtain ⟨b, y, rfl, hy⟩ := ht
    have hlast : a ++ ',' :: ' ' :: (x ++ symbolText k m) = b ++ ',' :: ' ' :: (y ++ symbolText k n) := by
      simpa using h
    obtain ⟨rfl, hpiece⟩ := separator_append_injective (not_separator_infix_append_symbolText hx hk hm)
      (not_separator_infix_append_symbolText hy hk hn) hlast
    -- The brackets end where the kind begins, and both kinds have as much before their first colon.
    have hcolon : ∀ {z : List Char}, (∀ c ∈ z, c ≠ ',' ∧ c ≠ ':' ∧ c ≠ ']') → ∀ c ∈ z, (c != ':') = true :=
      fun hz c hc => bne_iff_ne.mpr (hz c hc).2.1
    have hbrackets := congrArg (List.takeWhile (· != ':')) hpiece
    rw [List.takeWhile_append_of_pos (hcolon hx), List.takeWhile_append_of_pos (hcolon hy), takeWhile_symbolText,
      takeWhile_symbolText] at hbrackets
    obtain rfl := List.append_cancel_right hbrackets
    exact ⟨rfl, by simpa [symbolText] using hpiece⟩

/-! ## Lists of symbols -/

/-- Whether what separates the items of a list is not in the name of a symbol. -/
def Symbol.IsPlain (s : Symbol) : Prop := ¬ [',', ' '] <:+: s.member.toList

variable {τ : Type}

namespace Value

mutual
/-- The symbols in a value. -/
def symbols : Value τ → List Symbol
  | symbol s => [s]
  | list vs => symbolsOf vs
  | _ => []

def symbolsOf : List (Value τ) → List Symbol
  | [] => []
  | v :: vs => v.symbols ++ symbolsOf vs
end

theorem mem_symbolsOf {s : Symbol} {vs : List (Value τ)} : s ∈ symbolsOf vs ↔ ∃ v ∈ vs, s ∈ v.symbols := by
  induction vs with
  | nil => simp [symbolsOf]
  | cons v vs ih => simp [symbolsOf, ih]

/-- The symbols in the list that a value is, at any depth. -/
def listed : Value τ → List Symbol
  | list vs => symbolsOf vs
  | _ => []

/-- Whether the names of all symbols in the list that a value is are plain. A symbol that stands alone may have any
name. -/
def ListsPlain (v : Value τ) : Prop := ∀ x ∈ v.listed, x.IsPlain

/-- What stands before the item that follows some items, where `s` stands before the list. -/
def before (typeName : τ → String) (s : List Char) : List (Value τ) → List Char
  | [] => s ++ "vec![".toList
  | v :: vs => s ++ "vec![".toList ++ joined typeName (v :: vs) ++ [',', ' ']

theorem opens_before {typeName : τ → String} {s : List Char} (hs : Opens s) (vs : List (Value τ)) :
    Opens (before typeName s vs) := by
  cases vs with
  | nil => exact hs.bracket
  | cons v vs => exact opens_separator _

theorem joined_append_singleton (typeName : τ → String) (s : List Char) (vs : List (Value τ)) (v : Value τ) :
    s ++ "vec![".toList ++ joined typeName (vs ++ [v]) = before typeName s vs ++ (v.literal typeName).toList := by
  have hitems : ∀ ws : List (Value τ), literalItems typeName ws = ws.map fun w => w.literal typeName := by
    intro ws
    induction ws with
    | nil => rfl
    | cons w ws ih => rw [literalItems, ih, List.map_cons]
  cases vs with
  | nil => simp [joined, before, hitems]
  | cons w vs =>
      have hjoin := String.intercalate_append_of_ne_nil (s := ", ")
        (l := literalItems typeName (w :: vs)) (m := [v.literal typeName]) (by simp [literalItems]) (by simp)
      rw [joined, before, joined, hitems, List.map_append, ← hitems, List.map_singleton, hjoin]
      simp

theorem append_joined_injective {typeName : τ → String} {P : Value τ → Prop}
    (hitem : ∀ {v w : Value τ}, P v → P w → ∀ {s t : List Char}, Opens s → Opens t →
      s ++ (v.literal typeName).toList = t ++ (w.literal typeName).toList → v = w ∧ s = t)
    (hopen : ∀ {v : Value τ}, P v → ∀ {s t : List Char}, Opens s → Opens t →
      s ≠ t ++ (v.literal typeName).toList)
    {vs ws : List (Value τ)} (hvs : ∀ v ∈ vs, P v) (hws : ∀ w ∈ ws, P w) {s t : List Char} (hs : Opens s)
    (ht : Opens t) (h : s ++ "vec![".toList ++ joined typeName vs = t ++ "vec![".toList ++ joined typeName ws) :
    vs = ws ∧ s = t := by
  have hnil : ∀ s : List Char, s ++ "vec![".toList ++ joined typeName [] = s ++ "vec![".toList := by
    simp [joined, literalItems]
  have hends : ∀ x y : List Char, x ++ "vec![".toList ≠ y ++ [',', ' '] := fun x y he => by
    simpa using congrArg (fun l => l.reverse.head?) he
  induction vs using List.reverseRecOn generalizing ws with
  | nil =>
      cases ws using List.reverseRecOn with
      | nil => exact ⟨rfl, by simpa [hnil] using h⟩
      | append_singleton ws w =>
          rw [hnil, joined_append_singleton] at h
          exact absurd h (hopen (hws w (by simp)) hs.bracket (opens_before ht ws))
  | append_singleton vs v ih =>
      cases ws using List.reverseRecOn with
      | nil =>
          rw [hnil, joined_append_singleton] at h
          exact absurd h.symm (hopen (hvs v (by simp)) ht.bracket (opens_before hs vs))
      | append_singleton ws w =>
          rw [joined_append_singleton, joined_append_singleton] at h
          obtain ⟨rfl, hbefore⟩ := hitem (hvs v (by simp)) (hws w (by simp)) (opens_before hs vs)
            (opens_before ht ws) h
          -- A bracket stands before the first item, and a separator before every other one.
          rcases vs with - | ⟨v', vs⟩ <;> rcases ws with - | ⟨w', ws⟩
          · exact ⟨rfl, List.append_cancel_right hbefore⟩
          · exact absurd hbefore (hends _ _)
          · exact absurd hbefore.symm (hends _ _)
          · obtain ⟨hlist, hst⟩ := ih (fun u hu => hvs u (List.mem_append_left _ hu))
              (fun u hu => hws u (List.mem_append_left _ hu)) (List.append_cancel_right hbefore)
            exact ⟨congrArg (· ++ [v]) hlist, hst⟩

end Value

namespace Format

open Value

variable {f : Format τ} {e : Enumeration} {v w : Value τ} {typeName : τ → String} {s t : List Char}

theorem literal_symbol (x : Symbol) :
    ((Value.symbol x : Value τ).literal typeName).toList = symbolText x.enumeration.toList x.member.toList := by
  simp [literal, symbolText]

theorem append_literal_list (s : List Char) (vs : List (Value τ)) :
    s ++ ((Value.list vs).literal typeName).toList = s ++ "vec![".toList ++ joined typeName vs ++ [']'] := by
  simp [literal, joined]

/-- A literal with symbols ends in a symbol or in a bracket, and what opens an item does not. -/
theorem ne_append_literal (hf : f.enumeration? = some e) (hv : f.Fits v) (hplain : ∀ x ∈ v.symbols, x.IsPlain)
    (hs : Opens s) (ht : Opens t) : s ≠ t ++ (v.literal typeName).toList := by
  obtain ⟨a, x, rfl, hx⟩ := hs
  intro h
  cases v with
  | symbol y =>
      obtain ⟨b, z, hz, hfree, hcolon⟩ :=
        ht.exists_last_separator y.enumeration.toList (hplain y (List.mem_singleton_self y))
      rw [literal_symbol, hz] at h
      obtain ⟨-, rfl⟩ := separator_append_injective (fun hi => (hx _ (hi.subset (by simp))).1 rfl) hfree h
      exact (hx _ hcolon).2.1 rfl
  | list vs =>
      rw [append_literal_list] at h
      cases x using List.reverseRecOn with
      | nil => simpa using congrArg (fun l => l.reverse.head?) h
      | append_singleton x c =>
          have hc : c = ']' := by simpa using congrArg (fun l => l.reverse.head?) h
          exact (hx c (by simp)).2.2 hc
  | _ => cases f <;> first | exact hv.elim | cases hf

/-- **Literals of one format with symbols are read off behind whatever stands before them.** -/
theorem append_literal_injective (hf : f.enumeration? = some e) (hv : f.Fits v) (hw : f.Fits w)
    (hplain : ∀ x ∈ v.symbols, x.IsPlain) (hplain' : ∀ x ∈ w.symbols, x.IsPlain) (hs : Opens s) (ht : Opens t)
    (h : s ++ (v.literal typeName).toList = t ++ (w.literal typeName).toList) : v = w ∧ s = t := by
  induction f generalizing v w s t with
  | symbol e =>
      cases v with
      | symbol x =>
          cases w with
          | symbol y =>
              have hkind : x.enumeration = y.enumeration := hv.1.trans hw.1.symm
              rw [literal_symbol, literal_symbol, hkind] at h
              obtain ⟨hst, hmember⟩ := hs.append_symbolText_injective ht (hplain x (List.mem_singleton_self x))
                (hplain' y (List.mem_singleton_self y)) h
              cases x
              cases y
              cases hkind
              cases String.toList_inj.mp hmember
              exact ⟨rfl, hst⟩
          | _ => exact hw.elim
      | _ => exact hv.elim
  | list f ih =>
      cases v with
      | list vs =>
          cases w with
          | list ws =>
              have hitems : f.enumeration? = some e := hf
              have hall : ∀ {us : List (Value τ)}, (list f).Fits (.list us) →
                  (∀ x ∈ (Value.list us).symbols, x.IsPlain) →
                  ∀ u ∈ us, f.Fits u ∧ ∀ x ∈ u.symbols, x.IsPlain := fun hfit hp u hu =>
                ⟨hfit u hu, fun x hx => hp x (mem_symbolsOf.mpr ⟨u, hu, hx⟩)⟩
              rw [append_literal_list, append_literal_list] at h
              obtain ⟨rfl, hst⟩ := append_joined_injective
                (fun hv hw _ _ hs ht => ih hitems hv.1 hw.1 hv.2 hw.2 hs ht)
                (fun hv _ _ hs ht => ne_append_literal hitems hv.1 hv.2 hs ht) (hall hv hplain) (hall hw hplain')
                hs ht (List.append_cancel_right h)
              exact ⟨rfl, hst⟩
          | _ => exact hw.elim
      | _ => exact hv.elim
  | _ => cases hf

theorem exists_enumeration_of_fits (hv : f.Fits v) {x : Symbol} (hx : x ∈ v.symbols) :
    ∃ e, f.enumeration? = some e ∧ x.member ∈ e.members := by
  induction f generalizing v with
  | symbol e =>
      cases v with
      | symbol y =>
          obtain rfl := List.mem_singleton.mp hx
          exact ⟨e, rfl, hv.2⟩
      | _ => exact hv.elim
  | list f ih =>
      cases v with
      | list vs =>
          obtain ⟨u, hu, hux⟩ := mem_symbolsOf.mp hx
          exact ih (hv u hu) hux
      | _ => exact hv.elim
  | _ => cases v <;> first | exact hv.elim | cases hx

end Format

/-! ## Characteristics -/

namespace Schema

variable {τ κ : Type} [DecidableEq τ]

/-- Whether the source literals of a characteristic tell its exact values apart, as far as they are of a class
`P`. -/
def SourceTells (S : Schema τ κ) (c : κ) (P : Value τ → Prop) : Prop :=
  ∀ (naming : Naming τ) (v w : Value τ), S.accepts c v = true → S.accepts c w = true → v.isExact = true →
    w.isExact = true → P v → P w → ValueStyle.source.text naming v = ValueStyle.source.text naming w → v = w

theorem sourceTells_listsPlain (S : Schema τ κ) (c : κ) : S.SourceTells c Value.ListsPlain := by
  intro naming v w hv hw he he' hplain hplain' h
  rw [accepts, Format.accepts_iff_fits] at hv hw
  have hliteral : (v.literal naming.type).toList = (w.literal naming.type).toList := congrArg String.toList h
  cases henum : (S.format c).enumeration? with
  | none =>
      have hend : Format.Stops [] := by simp [Format.Stops]
      exact (Format.literal_append_injective henum hv hw he he' hend hend (congrArg (· ++ []) hliteral)).1
  | some e =>
      cases hformat : S.format c with
      | symbol e =>
          rw [hformat] at hv hw
          cases v with
          | symbol x =>
              cases w with
              | symbol y =>
                  -- Both literals begin with the name of the one enumeration, whatever follows.
                  cases x
                  cases y
                  cases hv.1
                  cases hw.1
                  exact congrArg (fun m => Value.symbol ⟨e.name, m⟩) ((String.append_right_inj _).mp h)
              | _ => exact hw.elim
          | _ => exact hv.elim
      | list f =>
          rw [hformat] at hv hw henum
          cases v with
          | list vs =>
              cases w with
              | list ws =>
                  exact (Format.append_literal_injective henum hv hw hplain hplain' (opens_separator [])
                    (opens_separator []) (congrArg ([',', ' '] ++ ·) hliteral)).1
              | _ => exact hw.elim
          | _ => exact hv.elim
      | _ =>
          rw [hformat] at henum
          cases henum

theorem listsPlain_of_catalog {k : Key} {v : Value NodeType} (hv : catalog.accepts k v = true) : v.ListsPlain := by
  rw [accepts, Format.accepts_iff_fits] at hv
  have hall : ∀ k ∈ Key.all, (catalog.format k).enumeration?.all
      (fun e => e.members.all fun m => !m.toList.contains ',') = true := by decide
  intro x hx
  have hsymbol : x ∈ v.symbols := by
    cases v with
    | list vs => exact hx
    | _ => cases hx
  obtain ⟨e, he, hm⟩ := Format.exists_enumeration_of_fits hv hsymbol
  have hnames := hall k (Key.mem_all k)
  rw [he] at hnames
  have hcomma : ',' ∉ x.member.toList := by simpa using List.all_eq_true.mp hnames x.member hm
  exact fun hi => hcomma (hi.subset (by simp))

/-- **Source literals lose nothing**: of two exact values that a characteristic accepts neither is written like the
other, as long as the symbols in lists have plain names. Those of jobs have. -/
theorem sourceTells (S : Schema τ κ) (c : κ) :
    S.SourceTells c Value.ListsPlain ∧ ∀ k, catalog.SourceTells k fun _ => True :=
  ⟨S.sourceTells_listsPlain c, fun k naming v w hv hw he he' _ _ h =>
    catalog.sourceTells_listsPlain k naming v w hv hw he he' (listsPlain_of_catalog hv) (listsPlain_of_catalog hw) h⟩

/-- One text with a comma in it is displayed like two texts, but written in another way. -/
theorem sourceTells_tags :
    let naming : Naming NodeType := ⟨fun n => n.type.name, NodeType.name⟩
    let one : Value NodeType := .list [.text "a, b"]
    let two : Value NodeType := .list [.text "a", .text "b"]
    (catalog.accepts (.specimen .tags) one = true ∧ catalog.accepts (.specimen .tags) two = true ∧
        one.isExact = true ∧ two.isExact = true ∧ one.ListsPlain ∧ two.ListsPlain) ∧
      ValueStyle.default.text naming one = ValueStyle.default.text naming two ∧
      ValueStyle.source.text naming one ≠ ValueStyle.source.text naming two := by
  intro naming one two
  have hone : one.ListsPlain := fun _ hx => nomatch hx
  have htwo : two.ListsPlain := fun _ hx => nomatch hx
  refine ⟨⟨by decide, by decide, rfl, rfl, hone, htwo⟩, by decide, fun h => ?_⟩
  have hsame : one = two :=
    (catalog.sourceTells (.specimen .tags)).1 naming one two (by decide) (by decide) rfl rfl hone htwo h
  simp [one, two] at hsame

/-- A type with one list of symbols, one of which reads like two. -/
def marks : Schema Unit Bool where
  typeName := fun _ => "Marks"
  isBag := fun _ => false
  own := fun _ => [true]
  own_bag := fun _ h => nomatch h
  id := false
  characteristic
    | false => ⟨"Id", (), .text, .identity, true, false⟩
    | true => ⟨"Marks", (), .list (.symbol ⟨"E", ["A", "A, E::A"]⟩), .plain, false, false⟩
  number := Bool.toNat
  id_format := rfl
  id_sticky := rfl
  slots := []
  mem_slots := by
    rintro (_ | _) t h <;> cases h
  showsData := by
    rintro (_ | _) - - hsticky
    · cases hsticky
    · exact ⟨rfl, fun f hf => nomatch hf⟩

/-- A list of two symbols and a list of one are both accepted and written alike. -/
theorem not_sourceTells_marks :
    let naming : Naming Unit := ⟨fun _ => "Marks", fun _ => "Marks"⟩
    let two : Value Unit := .list [.symbol ⟨"E", "A"⟩, .symbol ⟨"E", "A"⟩]
    let one : Value Unit := .list [.symbol ⟨"E", "A, E::A"⟩]
    (marks.accepts true two = true ∧ marks.accepts true one = true ∧ two.isExact = true ∧ one.isExact = true) ∧
      ValueStyle.source.text naming two = ValueStyle.source.text naming one ∧ two ≠ one ∧
      ¬ marks.SourceTells true fun _ => True := by
  intro naming two one
  have htext : ValueStyle.source.text naming two = ValueStyle.source.text naming one := by decide
  have hne : two ≠ one := by simp [two, one]
  refine ⟨⟨by decide, by decide, rfl, rfl⟩, htext, hne, fun h => ?_⟩
  exact hne (h naming two one (by decide) (by decide) rfl rfl trivial trivial htext)

end Schema

end LayeredConfig
