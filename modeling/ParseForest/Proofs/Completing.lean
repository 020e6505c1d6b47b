import ParseForest.Proofs.Completed
import ParseForest.Proofs.Passing

/-!
# Completion of terms

Completing a term in a session makes of it what completion makes of its tree,
without failing and whatever the completer remembers. Each action of the pass is
described once by its result.
-/
namespace ParseForest
namespace Ledger
variable {l k : Ledger} {t : Term} {g : Grammar} {slot : SortName}

/-- Regardless of sharing the result is the given one, and its node is as said. -/
structure Gives (l : Ledger) (w : Warned) (P : Term → Prop) (r : Term × Issues) : Prop where
  stores : l.Stores w.tree r.1
  warnings_eq : r.2 = w.warnings
  holds : P r.1

theorem Gives.of_le {w : Warned} {P : Term → Prop} {r : Term × Issues} (h : l.Gives w P r)
    (hlk : l ≤ k) : k.Gives w P r := ⟨h.stores.of_le hlk, h.warnings_eq, h.holds⟩

/-- Rules by which a relation between nodes and what becomes of them in the slot of a list sort can
be established. -/
structure PlacingRules (g : Grammar) (P : Term → Term → Prop) : Prop where
  stays : ∀ t, P t t
  listed : ∀ {slot d t m n}, g.lists.firstFor slot = some d → ¬t.isAmbiguity →
    P t (.application m d.cons [t, .application n d.terminator [] t.span] t.span)
  ambiguity : ∀ {m ts s us u}, List.Forall₂ P ts us → Forest.Rebuilt (.ambiguity m ts s) us u →
    P (.ambiguity m ts s) u

/-- Rules by which a relation between nodes and what completion makes of them can be established.
Only an application is more than walked; what becomes of it in its slots is related by `P`. -/
structure CompletionRules (P S : Term → Term → Prop) : Prop where
  walked : ∀ {t us u}, (∀ m p ts s, t ≠ .application m p ts s) → List.Forall₂ S t.items us →
    t.Rebuilt us u → S t u
  slots : ∀ {m p ts s us w vs v}, List.Forall₂ S ts us →
    Forest.Rebuilt (.application m p ts s) us w → List.Forall₂ P w.items vs → w.Rebuilt vs v →
    S (.application m p ts s) v

/-- Nothing is known but the trees. -/
theorem placingRules_true : PlacingRules g fun _ _ => True := by
  constructor <;> intros <;> trivial

theorem completionRules_true : CompletionRules (fun _ _ => True) fun _ _ => True := by
  constructor <;> intros <;> trivial

theorem yields_consult {α : Type} {question : SymbolTable → Except InternalError α} {a : α}
    (h : question l.symbols = .ok a) :
    l.Yields (Build.consult question) fun k b => k = l ∧ b = a := by
  refine yields_of_run (k := l) ?_ (le_refl l) ⟨rfl, rfl⟩
  rw [Build.consult_run]
  change (question l.symbols).map _ = _
  rw [h]
  rfl

theorem yields_intern (name : String) :
    l.Yields (Build.intern name) fun k s => k.symbols.find? name = some s :=
  yields_of_run (k := l.intern name) (Build.intern_run name l.session)
    ⟨SymbolTable.le_intern _ _, List.prefix_rfl⟩ (SymbolTable.find?_intern l.symbols name)

theorem yields_literal? (ht : t ∈ l) :
    l.Yields t.literal? fun k a => a = t.tree.literal k.symbols := by
  cases t with
  | constant m v p s =>
    have hv : v ∈ l.symbols := (knownTo_of_mem ht).self v (by simp [Forest.nodeSymbols])
    obtain ⟨text, hn⟩ := SymbolTable.mem_iff.mp hv
    simp only [Forest.literal?, Forest.tree_constant, Forest.literal]
    split
    · refine (yields_consult (SymbolTable.resolve_eq_ok_iff.mpr hn)).bind fun k a hlk ha => ?_
      obtain ⟨rfl, rfl⟩ := ha
      cases hu : unquoted a with
      | none =>
        refine Ensures.pure ?_
        rw [hn, Option.bind_some, hu]
        rfl
      | some name =>
        refine (yields_intern name).bind fun k s hlk hs => Ensures.pure ?_
        rw [symbols_le hlk v a hn, Option.bind_some, hu, Option.bind_some, hs]
        rfl
    · exact Ensures.pure rfl
  | application m p ts s =>
    rw [Forest.tree_application]
    exact Ensures.pure rfl
  | ambiguity m ts s =>
    rw [Forest.tree_ambiguity]
    exact Ensures.pure rfl
  | grouping m ts s =>
    rw [Forest.tree_grouping]
    exact Ensures.pure rfl

theorem yields_appliedLabel? (ht : t ∈ l) :
    l.Yields t.appliedLabel? fun k a => a = t.tree.appliedLabel k.symbols := by
  cases t with
  | constant => exact Ensures.pure rfl
  | application m p ts s =>
    rw [Forest.tree_application]
    cases ts with
    | nil => exact Ensures.pure rfl
    | cons u ts =>
      simp only [Forest.appliedLabel?, Forest.appliedLabel, List.map_cons]
      split
      · exact yields_literal? (mem_of_mem_items ht List.mem_cons_self)
      · exact Ensures.pure rfl
  | ambiguity m ts s =>
    rw [Forest.tree_ambiguity]
    exact Ensures.pure rfl
  | grouping m ts s =>
    rw [Forest.tree_grouping]
    exact Ensures.pure rfl

theorem yields_effectiveSort (ht : t ∈ l) :
    l.Yields (g.effectiveSort t) fun k a => a = g.judgedSort k.symbols t.tree := by
  unfold Grammar.effectiveSort Grammar.judgedSort
  rw [Forest.sort?_tree]
  cases hs : t.sort? with
  | none => exact Ensures.pure rfl
  | some sort =>
    refine (yields_appliedLabel? ht).bind fun k a _ ha => Ensures.pure ?_
    rw [ha]
    rfl

theorem yields_singletonList {d : ListDeclaration} (hg : g.KnownTo l.symbols)
    (hd : d ∈ g.lists.declarations) (ht : t ∈ l) :
    l.Yields (Completion.singletonList d t) fun k u =>
      k.Stores (Completion.singletonTree d t.tree) u ∧
        ∃ m n, u = .application m d.cons [t, .application n d.terminator [] t.span] t.span := by
  have hcontext := (knownTo_of_mem ht).context
  have hterminator : ([] : List Term).length = d.terminator.arity := d.terminator_arity.symm
  have hnil : ∀ u ∈ ([] : List Term), u ∈ l := fun u hu => absurd hu List.not_mem_nil
  refine (yields_made_application hnil hterminator (hg.terminator d hd) hcontext).bind
    fun k u hlk hu => ?_
  obtain ⟨huk, n, rfl⟩ := hu
  have hitems : ∀ v ∈ [t, .application n d.terminator [] t.span], v ∈ k :=
    List.forall_mem_cons.mpr ⟨mem_of_le hlk ht, List.forall_mem_singleton.mpr huk⟩
  have happly := yields_made_application hitems d.cons_arity.symm
    ((hg.cons d hd).of_le (symbols_le hlk)) (SymbolTable.mem_of_le (symbols_le hlk) hcontext)
  refine happly.imp fun k' v _ hv => ?_
  obtain ⟨hvk, m, rfl⟩ := hv
  exact ⟨⟨hvk, by simp [Completion.singletonTree]⟩, m, n, rfl⟩

section Placing
variable {P : Term → Term → Prop}

theorem yields_placeTerm (hP : PlacingRules g P) (hg : g.KnownTo l.symbols) (ht : t ∈ l)
    (ha : ¬t.isAmbiguity) : l.Yields (Completion.placeTerm g slot t)
      fun k r => k.Gives (Completion.placedTree k.symbols g slot t.tree) (P t) r := by
  unfold Completion.placeTerm
  refine (yields_effectiveSort ht).bind fun k found hlk hfound => ?_
  have hk := mem_of_le hlk ht
  have hgk := hg.of_le (symbols_le hlk)
  have hknown : t.tree.KnownTo k.symbols := Forest.knownTo_tree.mpr (knownTo_of_mem hk)
  -- The table may grow once more, but the tree is placed as it is placed now.
  have settle {action : Build (Term × Issues)} {w : Warned}
      (hw : Completion.placedTree k.symbols g slot t.tree = w)
      (h : k.Yields action fun m r => m.Gives w (P t) r) : k.Yields action fun m r =>
        m.Gives (Completion.placedTree m.symbols g slot t.tree) (P t) r := by
    refine h.imp fun m r hkm hr => ?_
    rwa [Completion.placedTree_of_le hgk (symbols_le hkm) hknown, hw]
  have stay (es : Issues) : k.Yields (pure (t, es)) fun m r => m.Gives ⟨t.tree, es⟩ (P t) r :=
    Ensures.pure ⟨stores_tree hk, rfl, hP.stays t⟩
  subst hfound
  split
  · rename_i p found hp hf
    have hpt : t.tree.production? = some p := by rw [Forest.production?_tree, hp]
    split
    · rename_i h
      exact settle (Completion.placedTree_of_keep hpt hf h) (stay ∅)
    · rename_i d h
      have hd := (Grammar.placement_eq_element_iff.mp h).2.2.2.2.2
      have hbuild := yields_singletonList hgk (List.mem_of_find?_eq_some hd) hk
      refine settle (Completion.placedTree_of_element hpt hf h)
        (hbuild.bind fun m u _ hu => Ensures.pure ?_)
      obtain ⟨hu, a, b, rfl⟩ := hu
      exact ⟨hu, rfl, hP.listed hd ha⟩
    · rename_i h
      have hw := Completion.placedTree_of_misplaced hpt hf h
      rw [Forest.span_tree] at hw
      exact settle hw (stay _)
  · rename_i hnone
    refine settle (Completion.placedTree_of_production?_eq_none ?_) (stay ∅)
    rw [Forest.production?_tree]
    cases hp : t.production? with
    | none => rfl
    | some p =>
      have hpt : t.tree.production? = some p := by rw [Forest.production?_tree, hp]
      obtain ⟨found, hf⟩ := Completion.exists_judgedSort k.symbols g hpt
      exact absurd hf (hnone p found hp)

/-- Make something of each member of a list. What is made must not depend on how far the table has
grown. -/
theorem yields_mapM_gives {α : Type} (xs : List α) (action : α → Build (Term × Issues))
    (w : SymbolTable → α → Warned) {Q : α → Term → Prop}
    (h : ∀ x ∈ xs, ∀ k, l ≤ k → k.Yields (action x) fun m r => m.Gives (w m.symbols x) (Q x) r)
    (hw : ∀ x ∈ xs, ∀ k m, l ≤ k → k ≤ m → w m.symbols x = w k.symbols x) :
    l.Yields (xs.mapM action) fun k rs => (∀ u ∈ rs.map Prod.fst, u ∈ k) ∧
      (rs.map Prod.fst).map Forest.tree = xs.map (fun x => (w k.symbols x).tree) ∧
      rs.map Prod.snd = xs.map (fun x => (w k.symbols x).warnings) ∧
      List.Forall₂ Q xs (rs.map Prod.fst) := by
  have hall : l.Yields (xs.mapM action) fun k rs =>
      List.Forall₂ (fun x r => x ∈ xs ∧ k.Gives (w k.symbols x) (Q x) r) xs rs := by
    refine Ensures.mapM (fun {k m x r} hlk hkm hr => ?_) fun x hx k hlk => ?_
    · refine ⟨hr.1, ?_⟩
      rw [hw x hr.1 k m hlk hkm]
      exact hr.2.of_le hkm
    · exact (h x hx k hlk).imp fun m r _ hr => ⟨hx, hr⟩
  refine hall.imp fun k rs _ hrs => ⟨fun u hu => ?_, ?_, ?_, ?_⟩
  · obtain ⟨r, hr, rfl⟩ := List.mem_map.mp hu
    obtain ⟨x, _, _, hx⟩ := forall₂_exists_left hrs hr
    exact hx.stores.mem
  · rw [List.map_map, ← List.forall₂_eq_eq_eq, List.forall₂_map_left_iff,
      List.forall₂_map_right_iff]
    exact (hrs.imp fun x r hr => hr.2.stores.tree_eq).flip
  · rw [← List.forall₂_eq_eq_eq, List.forall₂_map_left_iff, List.forall₂_map_right_iff]
    exact (hrs.imp fun x r hr => hr.2.warnings_eq).flip
  · rw [List.forall₂_map_right_iff]
    exact hrs.imp fun x r hr => hr.2.holds

theorem knownTo_tree_of_le (ht : t ∈ l) (hlk : l ≤ k) : t.tree.KnownTo k.symbols :=
  Forest.knownTo_tree.mpr (knownTo_of_mem (mem_of_le hlk ht))

theorem place_of_not_isAmbiguity (h : ¬t.isAmbiguity) :
    Completion.place g slot t = Completion.placeTerm g slot t := by
  cases t with
  | ambiguity => exact absurd rfl h
  | _ => simp [Completion.place]

theorem yields_place (hP : PlacingRules g P) (hg : g.KnownTo l.symbols) (ht : t ∈ l) :
    l.Yields (Completion.place g slot t)
      fun k r => k.Gives (Completion.placed k.symbols g slot t.tree) (P t) r := by
  induction t using Forest.induction generalizing l with
  | ambiguity m ts s ih =>
    have hts : ∀ u ∈ ts, u ∈ l := fun u hu => mem_of_mem_items ht hu
    have hall := yields_mapM_gives ts (Completion.place g slot)
      (fun names u => Completion.placed names g slot u.tree)
      (fun u hu k hlk => ih u hu (hg.of_le (symbols_le hlk)) (mem_of_le hlk (hts u hu)))
      (fun u hu k n hlk hkn => Completion.placed_of_le (hg.of_le (symbols_le hlk)) (symbols_le hkn)
        (knownTo_tree_of_le (hts u hu) hlk))
    rw [Completion.place, Completion.placeAll_eq]
    refine hall.bind fun k rs hlk hrs => ?_
    obtain ⟨hmem, htrees, hwarnings, hus⟩ := hrs
    refine (yields_rebuilt (mem_of_le hlk ht) hmem (by simp)).bind fun n u hkn hu =>
      Ensures.pure ?_
    have htree := tree_of_rebuilt (mem_of_le hlk ht) hmem hu.2
    rw [Completion.placed_of_le (hg.of_le (symbols_le hlk)) (symbols_le hkn)
      (knownTo_tree_of_le ht hlk), Forest.tree_ambiguity, Completion.placed_ambiguity,
      List.map_map, List.map_map]
    rw [Forest.tree_ambiguity, Forest.withItems_ambiguity, htrees] at htree
    exact ⟨⟨hu.1, htree⟩, congrArg OrderedSet.unions hwarnings, hP.ambiguity hus hu.2⟩
  | constant | application | grouping =>
    rw [place_of_not_isAmbiguity (by simp [Forest.isAmbiguity])]
    refine (yields_placeTerm hP hg ht (by simp [Forest.isAmbiguity])).imp fun k r _ hr => ?_
    rwa [Completion.placed_of_not_isAmbiguity (by simp [Forest.isAmbiguity])]

theorem yields_fill {p : Production} (hP : PlacingRules g P) (hg : g.KnownTo l.symbols)
    (hp : p.KnownTo l.symbols) (he : p.expects l.symbols) (ht : t ∈ l) :
    l.Yields (Completion.fill g slot t) fun k r =>
      k.Gives (Completion.filled k.symbols g p slot t.tree) (P t) r := by
  have hek {k : Ledger} (hlk : l ≤ k) : p.expects k.symbols = true :=
    (Production.expects_of_le (symbols_le hlk) hp).trans he
  unfold Completion.fill
  split
  · rename_i hs
    refine (yields_place hP hg ht).imp fun k r hlk hr => ?_
    rwa [Completion.filled, hek hlk, hs]
  · rename_i hs
    refine Ensures.pure ?_
    rw [Completion.filled, if_neg (by simp [hs])]
    exact ⟨stores_tree ht, rfl, hP.stays t⟩

/-- What becomes of the slots of a node, which is rebuilt from what becomes of its items. -/
theorem yields_completeNode (hP : PlacingRules g P) (hg : g.KnownTo l.symbols) (ht : t ∈ l) :
    l.Yields (Completion.completeNode g t) fun k o => k.AnswersWith
      (Completion.slotsOutcome k.symbols g t.tree)
      (fun v => ∃ vs, List.Forall₂ P t.items vs ∧ t.Rebuilt vs v) o := by
  have hsame : List.Forall₂ P t.items t.items := List.forall₂_same.mpr fun u _ => hP.stays u
  have stays {w : Tree} (hw : t.tree = w) : l.AnswersWith (.ok w)
      (fun v => ∃ vs, List.Forall₂ P t.items vs ∧ t.Rebuilt vs v) (.ok t) :=
    answersWith_ok ⟨ht, hw⟩ ⟨_, hsame, .inl ⟨rfl, rfl⟩⟩
  cases t with
  | application m p ts s =>
    have hp : p.KnownTo l.symbols := (knownTo_of_mem ht).production rfl
    have harity : ts.length = p.slots.length := l.wellFormed _ ht
    have hts : ∀ u ∈ ts, u ∈ l := fun u hu => mem_of_mem_items ht hu
    have hsettled {k j : Ledger} (hlk : l ≤ k) (hkj : k ≤ j) :=
      Completion.completedSlots_of_le (hg.of_le (symbols_le hlk)) (symbols_le hkj)
        (knownTo_tree_of_le ht hlk)
    rw [Forest.tree_application] at hsettled ⊢
    unfold Completion.completeNode Completion.slotsOutcome
    refine (yields_consult (Production.expectsLists_of_knownTo hp)).bind fun n e _ he => ?_
    obtain ⟨rfl, rfl⟩ := he
    split
    · rename_i he
      have hall := yields_mapM_gives (p.slots.zip ts) (fun c => Completion.fill g c.1 c.2)
        (fun names c => Completion.filled names g p c.1 c.2.tree) (Q := fun c => P c.2)
        (fun c hc k hlk => yields_fill hP (hg.of_le (symbols_le hlk)) (hp.of_le (symbols_le hlk))
          ((Production.expects_of_le (symbols_le hlk) hp).trans he)
          (mem_of_le hlk (hts _ (List.of_mem_zip hc).2)))
        (fun c hc k j hlk hkj => Completion.filled_of_le (hg.of_le (symbols_le hlk))
          (symbols_le hkj) (hp.of_le (symbols_le hlk))
          (knownTo_tree_of_le (hts _ (List.of_mem_zip hc).2) hlk))
      refine hall.bind fun k rs hlk hrs => ?_
      obtain ⟨hmem, htrees, hwarnings, hplaced⟩ := hrs
      have hvs : List.Forall₂ P ts (rs.map Prod.fst) := by
        rw [← List.map_snd_zip (Nat.le_of_eq harity), List.forall₂_map_left_iff]
        exact hplaced
      have hrebuild := yields_rebuilt_warned (.unions (rs.map Prod.snd)) (mem_of_le hlk ht) hmem (by
        intro m' p' us s' he
        injection he with _ _ hus
        exact hus ▸ hvs.length_eq.symm)
      refine hrebuild.imp fun k' o hkk ho => ?_
      rw [hsettled hlk hkk, Completion.completedSlots_application, List.zip_map_right,
        List.map_map, List.map_map]
      rw [Forest.tree_application, Forest.withItems_application, htrees, hwarnings] at ho
      exact ho.imp fun v _ hv => ⟨_, hvs, hv⟩
    · rename_i he
      have hlen : (ts.map Forest.tree).length = p.arity := (List.length_map _).trans harity
      refine Ensures.pure ?_
      rw [Completion.completedSlots_of_not_expects he hlen]
      exact stays (Forest.tree_application m p ts s)
  | constant m v p s => exact Ensures.pure (stays rfl)
  | ambiguity m ts s =>
    rw [Forest.tree_ambiguity]
    exact Ensures.pure (stays (Forest.tree_ambiguity m ts s))
  | grouping m ts s =>
    rw [Forest.tree_grouping]
    exact Ensures.pure (stays (Forest.tree_grouping m ts s))

end Placing

/-- Terms and their outcomes by completion. -/
abbrev Completed (g : Grammar) : Relation :=
  Follows fun names => Completion.completedOutcome names g

/-- Terms and their outcomes by completion, where `S` relates each node to the node of the
outcome. -/
abbrev CompletedWith (g : Grammar) (S : Term → Term → Prop) : Relation :=
  FollowsWith (fun names => Completion.completedOutcome names g) S

section Rules
variable {σ : Type} {base : Ledger} {P S : Term → Term → Prop}

theorem settledBy_completed (hg : g.KnownTo base.symbols) :
    SettledBy base.symbols fun names => Completion.completedOutcome names g := by
  intro names later t hb h ht
  dsimp only [Completion.completedOutcome]
  rw [Completion.completed_of_le (hg.of_le hb) h ht]

/-- Nothing fails, so every child survives. -/
theorem surviving_completedOutcome (names : SymbolTable) (g : Grammar) (t : Term) :
    surviving (Completion.completedOutcome names g) t = t.items := by
  unfold surviving
  split
  · exact List.filter_eq_self.mpr fun _ _ => rfl
  · rfl

theorem stepEstablishes_completer (hP : PlacingRules g P) (hS : CompletionRules P S)
    (hg : g.KnownTo base.symbols) :
    StepEstablishes base (CompletedWith g S) (Transformer.completer g : Transformer σ) := by
  intro self l t hb ht hself
  have hsettled := settledBy_completed hg
  have hwalk := ensures_walk hsettled hb ht hself
  simp only [surviving_completedOutcome] at hwalk
  change Ensures _ l (Completion.step g self t)
    fun k o => k.AnswersWith (Completion.completedOutcome k.symbols g t.tree) (S t) o
  -- Only an application is more than walked.
  have walkOnly (h : ∀ m p ts s, t.tree ≠ .application m p ts s)
      (h' : ∀ m p ts s, t ≠ .application m p ts s) :
      Ensures (Fits base (CompletedWith g S)) l (Transformer.walk self t)
        fun k o => k.AnswersWith (Completion.completedOutcome k.symbols g t.tree) (S t) o := by
    refine hwalk.imp fun k o _ ho => ?_
    rw [Completion.completedOutcome_of_not_application h]
    refine ho.imp fun u _ hu => ?_
    obtain ⟨us, hus, hrebuilt⟩ := hu
    exact hS.walked h' hus hrebuilt
  cases t with
  | application m p ts s =>
    refine hwalk.bind fun k o hlk ho => ?_
    have hbk := symbols_le (le_trans hb hlk)
    have hstable : Stable base (CompletedWith g S) := stable_followsWith hsettled
    have hnode (u : Term) (hu : u ∈ k) :=
      ensures_build (σ := σ) hstable (yields_completeNode hP (hg.of_le hbk) hu)
    have hthen := ensures_andThen
      (f := fun names => Completion.slotsOutcome names g) ho fun u hu _ _ => hnode u hu
    refine hthen.imp fun n o hkn ho => ?_
    have hitems := List.map_congr_left fun u hu => hsettled k.symbols n.symbols u hbk
      (symbols_le hkn) ((knownTo_tree_of_le ht hlk).of_mem_items hu)
    rw [Completion.completedOutcome_eq, hitems]
    refine ho.imp fun v _ hv => ?_
    obtain ⟨w, ⟨us, hus, hw⟩, vs, hvs, hv⟩ := hv
    exact hS.slots hus hw hvs hv
  | constant m v p s => exact walkOnly (by simp) (by simp)
  | ambiguity m ts s => exact walkOnly (by simp) (by simp)
  | grouping m ts s => exact walkOnly (by simp) (by simp)

theorem stepEstablishes_completed (hg : g.KnownTo base.symbols) :
    StepEstablishes base (Completed g) (Transformer.completer g : Transformer σ) := by
  rw [Completed, ← followsWith_true]
  exact stepEstablishes_completer placingRules_true completionRules_true hg

/-- Completing a term is completing its tree, whatever is remembered at the start, and a relation
that the rules establish holds between the node and what becomes of it. -/
theorem ensures_complete (hP : PlacingRules g P) (hS : CompletionRules P S)
    (hg : g.KnownTo base.symbols) (ht : t ∈ l) : Ensures (Within base) l (complete g t)
      fun k o => k.AnswersWith (Completion.completedOutcome k.symbols g t.tree) (S t) o :=
  ensures_transformAfresh (stable_followsWith (settledBy_completed hg))
    (stepEstablishes_completer hP hS hg) ht

end Rules

/-- What completing a term returns in the session of a ledger. The completer may have been used
before, so its memo holds anything. -/
def completion (g : Grammar) (l : Ledger) (memo : Option Memo) (t : Term) :
    Except InternalError Outcome := (complete g t).run' ⟨l.session, memo, ()⟩

/-- Completing a term succeeds with what completion makes of its tree, and a relation that the rules
establish holds between the node and the node that it gives. It does not matter whether strings are
looked up at the start or at the end. -/
theorem exists_completion_with {P S : Term → Term → Prop} (hP : PlacingRules g P)
    (hS : CompletionRules P S) (hg : g.KnownTo l.symbols) (ht : t ∈ l) (memo : Option Memo) :
    ∃ (o : Outcome) (u : Term), l.completion g memo t = .ok o ∧ o.result = .ok u ∧
      u.tree = (Completion.completed l.symbols g t.tree).tree ∧
      o.warnings = (Completion.completed l.symbols g t.tree).warnings ∧ S t u := by
  obtain ⟨o, s, k, hrun, hlk, -, ho⟩ :=
    ensures_complete hP hS hg ht ⟨l.session, memo, ()⟩ ⟨le_refl l, rfl⟩
  have hmap := ho.tree_eq
  rw [Completion.completedOutcome, Completion.completed_of_le hg (symbols_le hlk)
    (knownTo_tree_of_le ht (le_refl l))] at hmap
  obtain ⟨u, hu, htree⟩ := Outcome.result_map_eq_ok_iff.mp (congrArg Outcome.result hmap)
  refine ⟨o, u, ?_, hu, htree, congrArg Outcome.warnings hmap, ho.holds u hu⟩
  rw [completion, StateT.run'_eq, hrun]
  rfl

theorem exists_completion_eq (hg : g.KnownTo l.symbols) (ht : t ∈ l) (memo : Option Memo) :
    ∃ o : Outcome, l.completion g memo t = .ok o ∧
      o.map Forest.tree = Completion.completedOutcome l.symbols g t.tree := by
  obtain ⟨o, u, ho, hu, htree, hwarnings, -⟩ :=
    exists_completion_with placingRules_true completionRules_true hg ht memo
  refine ⟨o, ho, congrArg₂ Outcome.mk ?_ hwarnings⟩
  rw [hu]
  exact congrArg Except.ok htree

theorem completed_of_completion (hg : g.KnownTo l.symbols) (ht : t ∈ l) {memo : Option Memo}
    {o : Outcome} {u : Term} (h : l.completion g memo t = .ok o) (hu : o.result = .ok u) :
    (Completion.completed l.symbols g t.tree).tree = u.tree ∧
      (Completion.completed l.symbols g t.tree).warnings = o.warnings := by
  obtain ⟨p, hp, hmap⟩ := exists_completion_eq hg ht memo
  rw [h] at hp
  obtain rfl := Except.ok.inj hp
  have hresult := congrArg Outcome.result hmap
  rw [Outcome.result_map, hu] at hresult
  exact ⟨(Except.ok.inj hresult).symm, (congrArg Outcome.warnings hmap).symm⟩

end Ledger
end ParseForest
