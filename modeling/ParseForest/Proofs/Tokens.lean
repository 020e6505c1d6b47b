import ParseForest.Proofs.CleanedReadings
import ParseForest.Proofs.CompletedReadings
import ParseForest.Proofs.Disambiguated

/-!
# The tokens of a term

Neither pass loses, invents, repeats or moves a token. What cleaning drops holds
none, the terminator that completion adds holds none either, and what remains
stays in order. So every parse that an accepted term stands for has the tokens of
a parse that the term stood for before. Without ambiguities there is nothing to
choose, and the nodes of the tokens are the very same ones.
-/
namespace ParseForest
namespace Forest

section Constants
variable {ι : Type}

/-- The constants of a node, given those of its children. -/
def constantsNode (t : Forest ι) (cs : List (List (Forest ι))) : List (Forest ι) :=
  match t with
  | constant .. => [t]
  | _ => cs.flatten

/-- The constants that occur in the forest, from left to right. -/
def constants (t : Forest ι) : List (Forest ι) := t.fold constantsNode

variable (m : ι) (p : Production) (ts : List (Forest ι)) (s : Span)

@[simp] theorem constants_constant (v : Symbol) :
    (constant m v p s).constants = [constant m v p s] := fold_eq _ _

@[simp] theorem constants_application :
    (application m p ts s).constants = ts.flatMap constants := by
  rw [constants, fold_eq]
  rfl

@[simp] theorem constants_ambiguity : (ambiguity m ts s).constants = ts.flatMap constants := by
  rw [constants, fold_eq]
  rfl

@[simp] theorem constants_grouping : (grouping m ts s).constants = ts.flatMap constants := by
  rw [constants, fold_eq]
  rfl

theorem constants_of_isEmptyMarker {t : Forest ι} (h : t.isEmptyMarker) : t.constants = [] := by
  obtain ⟨m, s, rfl⟩ := isEmptyMarker_iff.mp h
  simp

/-- Empty markers can be left out. -/
theorem flatMap_constants_filter (ts : List (Forest ι)) :
    (ts.filter fun u => !u.isEmptyMarker).flatMap constants = ts.flatMap constants := by
  induction ts with
  | nil => rfl
  | cons t ts ih =>
    cases ht : t.isEmptyMarker with
    | true => simp [ht, ih, constants_of_isEmptyMarker ht]
    | false => simp [ht, ih]

end Constants

/-- No ambiguity occurs in the forest. -/
def Unambiguous {ι : Type} (t : Forest ι) : Prop := t.Everywhere fun u => ¬u.isAmbiguity

theorem unambiguous_tree {ι : Type} {t : Forest ι} : t.tree.Unambiguous ↔ t.Unambiguous :=
  everywhere_tree fun u => by simp

/-- Every reading of `u` has the constants of a reading of `t`, down to the spans. -/
def TokensFrom (u t : Tree) : Prop :=
  ∀ q, u.ReadsAs q → ∃ r, t.ReadsAs r ∧ r.constants = q.constants

variable {t u v : Tree}

theorem TokensFrom.refl (t : Tree) : t.TokensFrom t := fun q hq => ⟨q, hq, rfl⟩

theorem TokensFrom.trans (hvu : v.TokensFrom u) (hut : u.TokensFrom t) : v.TokensFrom t := by
  intro q hq
  obtain ⟨r, hr, hrq⟩ := hvu q hq
  obtain ⟨x, hx, hxr⟩ := hut r hr
  exact ⟨x, hx, hxr.trans hrq⟩

theorem exists_readings_of_tokensFrom {ts us qs : List Tree}
    (h : List.Forall₂ (fun t u => u.TokensFrom t) ts us) (hqs : List.Forall₂ ReadsAs us qs) :
    ∃ rs, List.Forall₂ ReadsAs ts rs ∧ rs.flatMap constants = qs.flatMap constants := by
  induction h generalizing qs with
  | nil =>
    cases hqs
    exact ⟨[], .nil, rfl⟩
  | cons hut _ ih =>
    cases hqs with
    | cons hq hqs =>
      obtain ⟨r, hr, hrq⟩ := hut _ hq
      obtain ⟨rs, hrs, hrest⟩ := ih hqs
      refine ⟨r :: rs, .cons hr hrs, ?_⟩
      rw [List.flatMap_cons, List.flatMap_cons, hrq, hrest]

/-- The children of a node are replaced by such as have their tokens. -/
theorem tokensFrom_withItems {us : List Tree}
    (h : List.Forall₂ (fun x u => u.TokensFrom x) t.items us) :
    (t.withItems us).TokensFrom t := by
  intro q hq
  cases t with
  | constant => exact ⟨q, hq, rfl⟩
  | application m p ts s =>
    obtain ⟨qs, hqs, rfl⟩ := readsAs_application_iff.mp hq
    obtain ⟨rs, hrs, hrq⟩ := exists_readings_of_tokensFrom h hqs
    exact ⟨_, readsAs_application_iff.mpr ⟨rs, hrs, rfl⟩, by simpa using hrq⟩
  | ambiguity m ts s =>
    rcases readsAs_ambiguity_iff.mp hq with ⟨hnil, rfl⟩ | ⟨u, hu, hq⟩
    · obtain rfl := eraseDups_eq_nil_iff.mp hnil
      have hts : ts = [] := List.length_eq_zero_iff.mp h.length_eq
      exact ⟨_, readsAs_ambiguity_iff.mpr (.inl ⟨hts, rfl⟩), rfl⟩
    · obtain ⟨x, hx, hux⟩ := forall₂_exists_left h (mem_of_mem_eraseDups hu)
      obtain ⟨r, hr, hrq⟩ := hux q hq
      exact ⟨r, readsAs_ambiguity_iff.mpr (.inr ⟨x, hx, hr⟩), hrq⟩
  | grouping m ts s =>
    obtain ⟨qs, hqs, rfl⟩ := readsAs_grouping_iff.mp hq
    obtain ⟨rs, hrs, hrq⟩ := exists_readings_of_tokensFrom h hqs
    exact ⟨_, readsAs_grouping_iff.mpr ⟨rs, hrs, rfl⟩, by simpa using hrq⟩

theorem constants_gathered (ts : List Tree) (s : Span) :
    (gathered ts s).constants = ts.flatMap constants := by
  by_cases hlen : ts.length = 1
  · obtain ⟨t, rfl⟩ := List.length_eq_one_iff.mp hlen
    simp [gathered_singleton]
  · rw [gathered_of_length_ne hlen, constants_grouping]

/-- What a group loses when it collapses holds no tokens. -/
theorem constants_collapsed_grouping (m : Unit) (ts : List Tree) (s : Span) :
    (grouping m ts s).collapsed.constants = ts.flatMap constants := by
  rw [collapsed_grouping, constants_gathered]
  exact flatMap_constants_filter ts

/-- The ambiguity of what is left of alternatives collapses. -/
theorem tokensFrom_collapsed_cleanings {m n : Unit} {ts : List Tree} {s : Span}
    (hok : ts = [] ∨ ∃ x ∈ ts, x.cleaned.isOk)
    (h : ∀ x ∈ ts, ∀ y, x.CleansTo y → y.TokensFrom x) :
    (ambiguity n (cleanings ts).eraseDups s).collapsed.TokensFrom (ambiguity m ts s) := by
  -- A reading of what an alternative is cleaned to has the tokens of one of the alternative.
  have reads {y q : Tree} (hy : y ∈ (cleanings ts).eraseDups) (hq : y.ReadsAs q) :
      ∃ r, (ambiguity m ts s).ReadsAs r ∧ r.constants = q.constants := by
    obtain ⟨x, hx, hxy⟩ := mem_cleanings.mp (mem_of_mem_eraseDups hy)
    obtain ⟨r, hr, hrq⟩ := h x hx y hxy q hq
    exact ⟨r, readsAs_ambiguity_iff.mpr (.inr ⟨x, hx, hr⟩), hrq⟩
  intro q hq
  rcases (readsAs_collapsed_ambiguity_iff (pairwise_eraseDups _)).mp hq with
    ⟨hproper, rfl⟩ | ⟨y, hy, hq⟩
  · rcases hok with rfl | ⟨x, hx, hx'⟩
    · exact ⟨_, readsAs_ambiguity_iff.mpr (.inl ⟨rfl, rfl⟩), rfl⟩
    · obtain ⟨y, hxy⟩ := isOk_cleaned_iff.mp hx'
      obtain ⟨z, hz, -⟩ := exists_agrees_of_mem (mem_cleanings.mpr ⟨x, hx, hxy⟩)
      -- All that is left are empty markers, and they read as themselves.
      have hmarker : z.isEmptyMarker := by
        by_contra hproper'
        have hmem : z ∈ proper (cleanings ts).eraseDups := mem_proper.mpr ⟨hz, hproper'⟩
        rw [hproper] at hmem
        cases hmem
      obtain ⟨m', s', rfl⟩ := isEmptyMarker_iff.mp hmarker
      obtain ⟨r, hr, hrq⟩ := reads hz (readsAs_grouping_iff.mpr ⟨[], .nil, rfl⟩)
      exact ⟨r, hr, by simpa using hrq⟩
  · exact reads (mem_proper.mp hy).1 hq

theorem CleansTo.tokensFrom (hw : t.WellFormed) (h : t.CleansTo u) : u.TokensFrom t := by
  have all {ts us : List Tree} (hts : ∀ x ∈ ts, x.WellFormed)
      (ih : ∀ x ∈ ts, ∀ {u : Tree}, x.WellFormed → x.CleansTo u → u.TokensFrom x)
      (hus : List.Forall₂ CleansTo ts us) : List.Forall₂ (fun x u => u.TokensFrom x) ts us :=
    forall₂_imp_of_mem hus fun x hx u _ hxu => ih x hx (hts x hx) hxu
  induction t using Forest.induction generalizing u with
  | constant m v p s =>
    obtain rfl := cleansTo_constant_iff.mp h
    exact .refl _
  | application m p ts s ih =>
    cases hl : p.label with
    | some label =>
      obtain ⟨us, hus, rfl⟩ := (cleansTo_labeled_iff hl).mp h
      exact tokensFrom_withItems (all (fun x hx => hw.items hx) ih hus)
    | none =>
      obtain ⟨x, rfl, hx⟩ := (cleansTo_unlabeled_iff hl).mp h
      intro q hq
      obtain ⟨r, hr, hrq⟩ := ih x List.mem_cons_self (hw.items List.mem_cons_self) hx q hq
      refine ⟨_, readsAs_application_iff.mpr ⟨[r], .cons hr .nil, rfl⟩, ?_⟩
      simpa using hrq
  | ambiguity m ts s ih =>
    obtain ⟨hok, rfl⟩ := cleansTo_ambiguity_iff.mp h
    exact tokensFrom_collapsed_cleanings hok fun x hx y hxy => ih x hx (hw.items hx) hxy
  | grouping m ts s ih =>
    obtain ⟨us, hus, rfl⟩ := cleansTo_grouping_iff.mp h
    have hclean : ∀ y ∈ us, y.Clean := by
      intro y hy
      obtain ⟨x, hx, hxy⟩ := forall₂_exists_left hus hy
      exact hxy.clean (hw.items hx)
    intro q hq
    obtain ⟨qs, hqs, rfl⟩ := (readsAs_collapsed_grouping_iff hclean).mp hq
    obtain ⟨rs, hrs, hrq⟩ :=
      exists_readings_of_tokensFrom (all (fun x hx => hw.items hx) ih hus) hqs
    refine ⟨_, readsAs_grouping_iff.mpr ⟨rs, hrs, rfl⟩, ?_⟩
    rw [constants_grouping, constants_collapsed_grouping, hrq]

end Forest

namespace Completion
open Forest (TokensFrom tokensFrom_withItems readsAs_application_iff constants)
variable {names : SymbolTable} {g : Grammar} {slot : SortName} {t : Tree}

/-- The list of one element has no token but those of the element. -/
theorem tokensFrom_singletonTree (d : ListDeclaration) (t : Tree) :
    (singletonTree d t).TokensFrom t := by
  intro q hq
  obtain ⟨qs, hqs, rfl⟩ := readsAs_application_iff.mp hq
  obtain ⟨r, rest, hr, hrest, rfl⟩ := List.forall₂_cons_left_iff.mp hqs
  obtain ⟨e, nothing, he, hnothing, rfl⟩ := List.forall₂_cons_left_iff.mp hrest
  obtain rfl := List.forall₂_nil_left_iff.mp hnothing
  obtain ⟨us, hus, rfl⟩ := readsAs_application_iff.mp he
  obtain rfl := List.forall₂_nil_left_iff.mp hus
  exact ⟨r, hr, by simp⟩

theorem tokensFrom_placed (slot : SortName) (t : Tree) :
    (placed names g slot t).tree.TokensFrom t := by
  induction t using Forest.induction with
  | ambiguity m ts s ih =>
    rw [placed_ambiguity]
    refine tokensFrom_withItems (t := .ambiguity m ts s) ?_
    exact List.forall₂_map_right_iff.mpr (List.forall₂_same.mpr ih)
  | constant | application | grouping =>
    rw [placed_of_not_isAmbiguity (by simp [Forest.isAmbiguity])]
    rcases placedTree_cases names g slot _ with hp | ⟨d, -, hp⟩ | ⟨found, hp⟩
    · rw [hp]
      exact .refl _
    · rw [hp]
      exact tokensFrom_singletonTree d _
    · rw [hp]
      exact .refl _

theorem tokensFrom_filled (p : Production) (slot : SortName) (t : Tree) :
    (filled names g p slot t).tree.TokensFrom t := by
  unfold filled
  split
  · exact tokensFrom_placed slot t
  · exact .refl t

theorem tokensFrom_completed (hw : t.WellFormed) :
    (completed names g t).tree.TokensFrom t := by
  have all {ts : List Tree} (hts : ∀ x ∈ ts, x.WellFormed)
      (ih : ∀ x ∈ ts, x.WellFormed → (completed names g x).tree.TokensFrom x) :
      List.Forall₂ (fun x u => u.TokensFrom x) ts
        (ts.map fun x => (completed names g x).tree) :=
    List.forall₂_map_right_iff.mpr (List.forall₂_same.mpr fun x hx => ih x hx (hts x hx))
  induction t using Forest.induction with
  | constant =>
    rw [completed_constant]
    exact .refl _
  | application m p ts s ih =>
    have hlen : ts.length = p.slots.length := hw.self
    rw [completed_application]
    refine tokensFrom_withItems (t := .application m p ts s) ?_
    -- There is a slot for each child, so none is lost.
    have hzip : ((p.slots.zip ts).map fun c => c.2) = ts := List.map_snd_zip (Nat.le_of_eq hlen)
    have hslots : List.Forall₂ (fun x u => u.TokensFrom x) ((p.slots.zip ts).map fun c => c.2)
        ((p.slots.zip ts).map fun c => (slotted names g p c.1 c.2).tree) := by
      rw [List.forall₂_map_left_iff, List.forall₂_map_right_iff]
      refine List.forall₂_same.mpr fun c hc => ?_
      have hx : c.2 ∈ ts := (List.of_mem_zip hc).2
      exact (tokensFrom_filled p c.1 _).trans (ih c.2 hx (hw.items hx))
    rwa [hzip] at hslots
  | ambiguity m ts s ih =>
    rw [completed_ambiguity]
    exact tokensFrom_withItems (t := .ambiguity m ts s) (all (fun x hx => hw.items hx) ih)
  | grouping m ts s ih =>
    rw [completed_grouping]
    exact tokensFrom_withItems (t := .grouping m ts s) (all (fun x hx => hw.items hx) ih)

end Completion

/-- A term without ambiguities becomes one without ambiguities, of the very same tokens. -/
def SameTokens (t u : Term) : Prop :=
  t.Unambiguous → u.Unambiguous ∧ u.constants = t.constants

namespace SameTokens
open Forest (Rebuilt Unambiguous constants everywhere_iff flatMap_constants_filter)
variable {t u v w : Term} {us : List Term}

theorem refl (t : Term) : SameTokens t t := fun ht => ⟨ht, rfl⟩

theorem trans (htu : SameTokens t u) (huv : SameTokens u v) : SameTokens t v := by
  intro ht
  obtain ⟨hu, hut⟩ := htu ht
  obtain ⟨hv, hvu⟩ := huv hu
  exact ⟨hv, hvu.trans hut⟩

theorem of_forall₂ {ts : List Term} (h : List.Forall₂ SameTokens ts us)
    (ht : ∀ x ∈ ts, x.Unambiguous) :
    (∀ x ∈ us, x.Unambiguous) ∧ us.flatMap constants = ts.flatMap constants := by
  induction h with
  | nil => exact ⟨ht, rfl⟩
  | cons hxu _ ih =>
    obtain ⟨hx, hts⟩ := List.forall_mem_cons.mp ht
    obtain ⟨hu, hux⟩ := hxu hx
    obtain ⟨hus, hrest⟩ := ih hts
    refine ⟨List.forall_mem_cons.mpr ⟨hu, hus⟩, ?_⟩
    rw [List.flatMap_cons, List.flatMap_cons, hux, hrest]

/-- A node is rebuilt from items that hold its tokens. -/
theorem of_rebuilt (h : t.Rebuilt us u) (hus : (∀ x ∈ t.items, x.Unambiguous) →
    (∀ x ∈ us, x.Unambiguous) ∧ us.flatMap constants = t.items.flatMap constants) :
    SameTokens t u := by
  intro ht
  obtain ⟨hplain, hconstants⟩ := hus fun x hx => ht.of_mem_items hx
  cases t with
  | constant m v p s =>
    obtain rfl := Forest.rebuilt_constant h
    exact ⟨ht, rfl⟩
  | application m p ts s =>
    obtain ⟨n, rfl⟩ := Forest.exists_of_rebuilt_application h
    refine ⟨everywhere_iff.mpr ⟨by simp [Forest.isAmbiguity], hplain⟩, ?_⟩
    rw [Forest.constants_application, Forest.constants_application, hconstants]
    rfl
  | ambiguity m ts s => exact absurd rfl ht.self
  | grouping m ts s =>
    obtain ⟨n, rfl⟩ := Forest.exists_of_rebuilt_grouping h
    refine ⟨everywhere_iff.mpr ⟨by simp [Forest.isAmbiguity], hplain⟩, ?_⟩
    rw [Forest.constants_grouping, Forest.constants_grouping, hconstants]
    rfl

theorem of_rebuilt_forall₂ (h : t.Rebuilt us u) (hus : List.Forall₂ SameTokens t.items us) :
    SameTokens t u := of_rebuilt h (of_forall₂ hus)

end SameTokens

namespace Ledger
open Forest (Unambiguous constants everywhere_iff)
variable {l : Ledger} {t : Term} {g : Grammar}

/-- When a group collapses, its tokens are left. -/
theorem Collapsed.sameTokens {m : Tag} {ts : List Term} {s : Span} {v : Term}
    (h : Collapsed SameTokens (.grouping m ts s) v) : SameTokens (.grouping m ts s) v := by
  have hproper : (properItems (.grouping m ts s)).flatMap constants = ts.flatMap constants :=
    Forest.flatMap_constants_filter ts
  have hmem : ∀ x ∈ properItems (.grouping m ts s), x ∈ ts := fun x hx => List.mem_of_mem_filter hx
  cases h with
  | marker => exact .refl _
  | nothing mark hnil =>
    intro _
    refine ⟨everywhere_iff.mpr ⟨by simp [Forest.isAmbiguity], fun _ hx => by cases hx⟩, ?_⟩
    rw [hnil] at hproper
    simpa using hproper
  | @lone u v hu hv =>
    intro ht
    rw [hu] at hproper hmem
    obtain ⟨hplain, hconstants⟩ := hv (ht.of_mem_items (hmem u List.mem_cons_self))
    refine ⟨hplain, ?_⟩
    rw [hconstants, Forest.constants_grouping, ← hproper, List.flatMap_singleton]
  | several _ hv =>
    exact .of_rebuilt hv fun ht => ⟨fun x hx => ht x (hmem x hx), hproper⟩

theorem cleaningRules_sameTokens : CleaningRules SameTokens where
  constant _ _ _ _ := .refl _
  labeled _ hus hu := .of_rebuilt_forall₂ hu hus
  unlabeled _ hu ht := by
    obtain ⟨hplain, hconstants⟩ := hu (ht.of_mem_items List.mem_cons_self)
    exact ⟨hplain, by simpa using hconstants⟩
  collapsed {t us w v} hp hus hw hv := by
    cases t with
    | constant | application => cases hp
    | ambiguity => exact fun ht => absurd rfl ht.self
    | grouping m ts s =>
      have hwalked : SameTokens (.grouping m ts s) w := .of_rebuilt_forall₂ hw hus
      obtain ⟨n, rfl⟩ := Forest.exists_of_rebuilt_grouping hw
      exact hwalked.trans hv.sameTokens

theorem placingRules_sameTokens : PlacingRules g SameTokens where
  stays := .refl
  listed _ _ ht := by
    refine ⟨everywhere_iff.mpr ⟨by simp [Forest.isAmbiguity], ?_⟩, by simp⟩
    refine List.forall_mem_cons.mpr ⟨ht, List.forall_mem_singleton.mpr ?_⟩
    exact everywhere_iff.mpr ⟨by simp [Forest.isAmbiguity], fun _ hx => by cases hx⟩
  ambiguity _ _ ht := absurd rfl ht.self

theorem completionRules_sameTokens : CompletionRules SameTokens SameTokens where
  walked _ hus hu := .of_rebuilt_forall₂ hu hus
  slots hus hw hvs hv :=
    .trans (.of_rebuilt_forall₂ hw hus) (.of_rebuilt_forall₂ hv hvs)

/-- Every reading of an accepted term has the tokens of a reading of the term that was
disambiguated, in the same order and with their spans. If there was no ambiguity, the tokens are the
very same nodes. -/
theorem disambiguation_keeps_tokens (hg : g.KnownTo l.symbols) (ht : t ∈ l) (config : PassConfig) :
    ∃ v, l.disambiguation g config t = .ok v ∧ ∀ d, v = .ok d →
      (∀ q, d.term.tree.ReadsAs q → ∃ r, t.tree.ReadsAs r ∧ r.constants = q.constants) ∧
        (t.Unambiguous → d.term.constants = t.constants) := by
  obtain ⟨o, k, hrun, -, ho⟩ := exists_disambiguation_with cleaningRules_sameTokens
    placingRules_sameTokens completionRules_sameTokens hg ht config
  refine ⟨o.verdict, hrun, fun d hd => ?_⟩
  have hresult : o.result = .ok d.term := (Outcome.verdict_eq_ok_iff.mp hd).1
  have hw : t.tree.WellFormed := Forest.wellFormed_tree.mpr (wellFormed_of_mem ht)
  constructor
  · have htree : (t.tree.disambiguated l.symbols g).result = .ok d.term.tree := by
      rw [← ho.tree_eq, Outcome.result_map, hresult]
      rfl
    obtain ⟨u, hu, hud⟩ := Forest.result_disambiguated_eq_ok_iff.mp htree
    have hwu : u.WellFormed := (hu.clean hw).wellFormed
    rw [← hud]
    exact (Completion.tokensFrom_completed hwu).trans (hu.tokensFrom hw)
  · intro hplain
    obtain ⟨u, htu, hud⟩ := ho.holds d.term hresult
    exact ((htu.trans hud) hplain).2

/-- A token that cleaning takes out of a group and a wrapper, and that completion then puts into a
list. -/
def wrappedToken : Tree :=
  let wrapper : Production := ⟨elementSort, [.nonterminal elementSort], none, ∅⟩
  .application () ofList [.application () wrapper
    [.grouping () [.grouping () [] .unknown, element] .unknown] .unknown] .unknown

theorem disambiguation_keeps_tokens_wrappedToken : ∃ (l : Ledger) (t : Term), t ∈ l ∧
    t.tree = wrappedToken ∧ t.tree.constants = [element] ∧
      ∃ d, l.disambiguation listGrammar {} t = .ok (.ok d) ∧ d.term.constants = t.constants := by
  obtain ⟨l, t, hl, ht, htree⟩ :=
    exists_stores (l := listNames) (r := wrappedToken) (by decide) (by decide)
  have hg : listGrammar.KnownTo l.symbols := knownTo_listGrammar.of_le (symbols_le hl)
  have hplain : t.Unambiguous := by
    rw [← Forest.unambiguous_tree, htree]
    unfold Unambiguous
    decide
  have hclean : wrappedToken.CleansTo (.application () ofList [element] .unknown) := rfl
  obtain ⟨v, hv, htokens⟩ := disambiguation_keeps_tokens hg ht {}
  obtain ⟨d, hd⟩ := exists_accepted hg ht {} (htree ▸ hclean)
  obtain rfl := Except.ok.inj (hv.symm.trans hd)
  exact ⟨l, t, ht, htree, htree ▸ rfl, d, hd, (htokens d rfl).2 hplain⟩

end Ledger
end ParseForest
