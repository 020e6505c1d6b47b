import ParseForest.Proofs.Joining

/-!
# Passes that keep a ledger

A pass is described by a relation between terms and outcomes that, once it holds
in a ledger, holds in later ones. If every step of a transformer establishes the
relation for a node, given that it holds of what the step asks about lower nodes,
then so does the whole transformer, whatever its memo remembers: the memo only
holds outcomes for which the relation held before. All this is said of ledgers
that have grown from a base, which is a ledger that has whatever directs the pass.
-/
namespace ParseForest
namespace Ledger

/-- Relates the terms of a ledger to their outcomes. -/
abbrev Relation := Ledger → Term → Outcome → Prop

/-- What is related stays related. -/
def Stable (base : Ledger) (R : Relation) : Prop :=
  ∀ (l k : Ledger) (t : Term) (o : Outcome), base ≤ l → l ≤ k → t ∈ l → R l t o → R k t o

/-- Each entry of the memo is for a node of the ledger and its outcome. -/
def Remembers (R : Relation) (l : Ledger) (memo : Memo) : Prop :=
  ∀ (n : Nat) (entry : Term × Outcome), memo.entries[n]? = some entry →
    entry.1 ∈ l ∧ entry.1.number = n ∧ R l entry.1 entry.2

variable {σ α : Type} {base : Ledger} {R : Relation} {l k : Ledger} {t : Term} {o : Outcome}

/-- The session of the state is the one that the ledger describes. -/
def Within (base : Ledger) (l : Ledger) (s : PassState σ) : Prop :=
  base ≤ l ∧ s.session = l.session

/-- The whole state, memo included, goes with the ledger. -/
structure Fits (base : Ledger) (R : Relation) (l : Ledger) (s : PassState σ) : Prop where
  base_le : base ≤ l
  session_eq : s.session = l.session
  remembers : ∀ memo, s.memo = some memo → Remembers R l memo

theorem Remembers.get {memo : Memo} (h : Remembers R l memo) (ht : t ∈ l)
    (hget : memo.get? t = some o) : R l t o := by
  obtain ⟨entry, he, rfl⟩ := Option.map_eq_some_iff.mp hget
  obtain ⟨hm, hn, hr⟩ := h _ entry he
  rwa [eq_of_number_eq hm ht hn] at hr

theorem Remembers.insert {memo : Memo} (h : Remembers R l memo) (ht : t ∈ l) (ho : R l t o) :
    Remembers R l (memo.insert t o) := by
  intro n entry he
  rw [Memo.entries_insert] at he
  split at he
  · rename_i hn
    obtain rfl := Option.some.inj he
    exact ⟨ht, hn.symm, ho⟩
  · exact h n entry he

theorem remembers_empty : Remembers R l ∅ := by
  intro n entry he
  rw [Memo.entries_empty] at he
  cases he

theorem Remembers.of_le {memo : Memo} (hR : Stable base R) (h : Remembers R l memo)
    (hb : base ≤ l) (hlk : l ≤ k) : Remembers R k memo := by
  intro n entry he
  obtain ⟨hm, hn, hr⟩ := h n entry he
  exact ⟨mem_of_le hlk hm, hn, hR l k _ _ hb hlk hm hr⟩

/-- A pass may rely on the base. -/
theorem ensures_of_base {pass : Pass σ α} {post : Ledger → α → Prop}
    (h : base ≤ l → Ensures (Fits base R) l pass post) :
    Ensures (Fits base R) l pass post := fun s hs => h hs.base_le s hs

theorem ensures_build {action : Build α} {post : Ledger → α → Prop} (hR : Stable base R)
    (h : l.Yields action post) :
    Ensures (Fits base R) l (Pass.build action : Pass σ α) post := by
  intro s hs
  obtain ⟨a, s', k, hrun, hlk, hs', ha⟩ := h s.session hs.session_eq
  refine ⟨a, { s with session := s' }, k, ?_, hlk, ⟨le_trans hs.base_le hlk, hs', ?_⟩, ha⟩
  · rw [Pass.build_run, hrun]
    rfl
  · exact fun memo hm => (hs.remembers memo hm).of_le hR hs.base_le hlk

/-- Ask the memo about a node before anything else is done about it. -/
theorem ensures_remembered {next : Option Outcome → Pass σ Outcome}
    {post : Ledger → Outcome → Prop} (ht : t ∈ l)
    (hsome : ∀ o, R l t o → Ensures (Fits base R) l (next (some o)) post)
    (hnone : Ensures (Fits base R) l (next none) post) :
    Ensures (Fits base R) l (Pass.remembered t >>= next) post := by
  intro s hs
  rw [StateT.run_bind, Pass.remembered_run]
  cases hget : s.memo.bind fun memo => memo.get? t with
  | none => exact hnone s hs
  | some o =>
    obtain ⟨memo, hm, ho⟩ := Option.bind_eq_some_iff.mp hget
    exact hsome o ((hs.remembers memo hm).get ht ho) s hs

theorem ensures_remember (ht : t ∈ l) (ho : R l t o) :
    Ensures (Fits base R) l (Pass.remember t o : Pass σ Unit) fun _ _ => True := by
  intro s hs
  refine ⟨(), _, l, Pass.remember_run t o s, le_refl l,
    ⟨hs.base_le, hs.session_eq, fun memo hm => ?_⟩, trivial⟩
  obtain ⟨before, hb, rfl⟩ := Option.map_eq_some_iff.mp hm
  exact (hs.remembers before hb).insert ht ho

/-- The step of the transformer establishes the relation for a node, if asking about lower nodes
does. -/
def StepEstablishes (base : Ledger) (R : Relation) (f : Transformer σ) : Prop :=
  ∀ (self : Term → Pass σ Outcome) (l : Ledger) (t : Term), base ≤ l → t ∈ l →
    (∀ k u, l ≤ k → u ∈ k → u.height < t.height →
      Ensures (Fits base R) k (self u) fun m o => R m u o) →
    Ensures (Fits base R) l (f.step self t) fun m o => R m t o

theorem ensures_transformWithin {f : Transformer σ} (hR : Stable base R)
    (hf : StepEstablishes base R f) (depth : Nat) (ht : t ∈ l) (hd : t.height < depth) :
    Ensures (Fits base R) l (f.transformWithin depth t) fun k o => R k t o := by
  induction depth generalizing l t with
  | zero => omega
  | succ depth ih =>
    refine ensures_of_base fun hb => ?_
    refine ensures_remembered ht (fun o ho => Ensures.pure ho) ?_
    have hstep := hf (f.transformWithin depth) l t hb ht fun k u _ hu hlt => ih hu (by omega)
    refine hstep.bind fun k o hlk ho => ?_
    refine (ensures_remember (mem_of_le hlk ht) ho).bind fun m _ hkm _ => ?_
    exact Ensures.pure (hR k m t o (le_trans hb hlk) hkm (mem_of_le hlk ht) ho)

theorem ensures_transform {f : Transformer σ} (hR : Stable base R) (hf : StepEstablishes base R f)
    (ht : t ∈ l) : Ensures (Fits base R) l (f.transform t) fun k o => R k t o :=
  ensures_transformWithin hR hf _ ht (Nat.lt_succ_of_le (height_le_number ht))

/-- What the memo remembered before does not matter. -/
theorem ensures_transformAfresh {f : Transformer σ} (hR : Stable base R)
    (hf : StepEstablishes base R f) (ht : t ∈ l) :
    Ensures (Within base) l (f.transformAfresh t) fun k o => R k t o := by
  intro s hs
  have hfits : Fits base R l { s with memo := s.memo.map fun _ => ∅ } := by
    refine ⟨hs.1, hs.2, fun memo hm => ?_⟩
    obtain ⟨_, _, rfl⟩ := Option.map_eq_some_iff.mp hm
    exact remembers_empty
  obtain ⟨o, s', k, hrun, hlk, hs', ho⟩ := ensures_transform hR hf ht _ hfits
  exact ⟨o, s', k, hrun, hlk, ⟨hs'.base_le, hs'.session_eq⟩, ho⟩

theorem yields_start {memoize : Bool} {own : σ} {pass : Pass σ α} {post : Ledger → α → Prop}
    (hb : base ≤ l) (h : Ensures (Within base) l pass post) :
    l.Yields (Pass.start memoize own pass) post := by
  intro s hs
  obtain ⟨a, s', k, hrun, hlk, hs', ha⟩ := h ⟨s, if memoize then some ∅ else none, own⟩ ⟨hb, hs⟩
  refine ⟨a, s'.session, k, ?_, hlk, hs'.2, ha⟩
  have hrun' : pass ⟨s, if memoize then some ∅ else none, own⟩ = .ok (a, s') := hrun
  change (pass ⟨s, if memoize then some ∅ else none, own⟩).map _ = _
  rw [hrun']
  rfl

/-- Walking a node joins the outcomes of its children, and rebuilds the node from their terms. -/
theorem ensures_walk_children (hR : Stable base R)
    (hmem : ∀ k u o, R k u o → ∀ v, o.result = .ok v → v ∈ k) (hb : base ≤ l) (ht : t ∈ l)
    {self : Term → Pass σ Outcome}
    (hself : ∀ k u, l ≤ k → u ∈ k → u.height < t.height →
      Ensures (Fits base R) k (self u) fun m o => R m u o) :
    Ensures (Fits base R) l (Transformer.walk self t) fun k o => ∃ n os, l ≤ n ∧ n ≤ k ∧
      List.Forall₂ (R n) t.items os ∧ k.AnswersWith
        (t.tree.joined (os.map fun o => o.map Forest.tree)) (t.Rebuilt (Outcome.terms os)) o := by
  have hchildren : Ensures (Fits base R) l (t.items.mapM self) fun k os =>
      List.Forall₂ (fun u o => u ∈ k ∧ R k u o) t.items os := by
    refine Ensures.mapM (fun hlk hkm hr => ?_) fun u hu k hlk => ?_
    · exact ⟨mem_of_le hkm hr.1, hR _ _ _ _ (le_trans hb hlk) hkm hr.1 hr.2⟩
    · have hu' := mem_of_le hlk (mem_of_mem_items ht hu)
      have hstep := hself k u hlk hu' (Forest.height_lt_of_mem_items hu)
      exact hstep.imp fun m o hkm ho => ⟨mem_of_le hkm hu', ho⟩
  refine hchildren.bind fun k os hlk hos => ?_
  have hmade : ∀ o ∈ os, ∀ u, o.result = .ok u → u ∈ k := by
    intro o ho u hu
    obtain ⟨v, _, _, hr⟩ := forall₂_exists_left hos ho
    exact hmem k v o hr u hu
  have hjoin := yields_join (mem_of_le hlk ht) hos.length_eq.symm hmade
  refine ensures_build hR (hjoin.imp fun m o hkm ho => ?_)
  exact ⟨k, os, hlk, hkm, hos.imp fun _ _ h => h.2, ho⟩

/-- The outcome of each node is the one that the rule gives. The rule may look at the strings of
symbols, and it may have to wait for some. -/
def Obeys (rule : SymbolTable → Term → Option (Outcome Tree)) : Relation :=
  fun l t o => ∃ r, rule l.symbols t = some r ∧ l.Answers r o

/-- What the rule says of a node of a ledger, it says in later ledgers as well. -/
def Lasting (base : Ledger) (rule : SymbolTable → Term → Option (Outcome Tree)) : Prop :=
  ∀ (l k : Ledger) (t : Term) (r : Outcome Tree), base ≤ l → l ≤ k → t ∈ l →
    rule l.symbols t = some r → rule k.symbols t = some r

section Obeys
variable {rule : SymbolTable → Term → Option (Outcome Tree)}

theorem stable_obeys (h : Lasting base rule) : Stable base (Obeys rule) := by
  intro l k t o hb hlk ht ho
  obtain ⟨r, hr, ho⟩ := ho
  exact ⟨r, h l k t r hb hlk ht hr, ho.of_le hlk⟩

/-- Outcomes of one node that obey a rule are the same, regardless of sharing. -/
theorem Obeys.tree_eq {p : Outcome} (ho : Obeys rule l t o) (hp : Obeys rule l t p) :
    o.map Forest.tree = p.map Forest.tree := by
  obtain ⟨r, hr, ho⟩ := ho
  obtain ⟨r', hr', hp⟩ := hp
  rw [hr] at hr'
  rw [ho.tree_eq, hp.tree_eq, Option.some.inj hr']

/-- The outcome of a node that is walked joins the outcomes that the rule gives its children. -/
def walkedBy (rule : SymbolTable → Term → Option (Outcome Tree)) (names : SymbolTable) (t : Term) :
    Option (Outcome Tree) := (t.items.mapM (rule names)).map t.tree.joined

theorem walkedBy_eq_some_iff {names : SymbolTable} {r : Outcome Tree} :
    walkedBy rule names t = some r ↔
      ∃ rs, List.Forall₂ (fun u q => rule names u = some q) t.items rs ∧ t.tree.joined rs = r := by
  simp only [walkedBy, Option.map_eq_some_iff, mapM_eq_some_iff_forall₂]

theorem lasting_walkedBy (h : Lasting base rule) : Lasting base (walkedBy rule) := by
  intro l k t r hb hlk ht hr
  obtain ⟨rs, hrs, hr⟩ := walkedBy_eq_some_iff.mp hr
  refine walkedBy_eq_some_iff.mpr ⟨rs, ?_, hr⟩
  exact forall₂_imp_of_mem hrs fun u hu q _ hq =>
    h l k u q hb hlk (mem_of_mem_items ht hu) hq

/-- Walking a node gives what the rule makes it, if what it asks about its children obeys the
rule. -/
theorem ensures_walk_obeys (h : Lasting base rule) (hb : base ≤ l) (ht : t ∈ l)
    {self : Term → Pass σ Outcome}
    (hself : ∀ k u, l ≤ k → u ∈ k → u.height < t.height →
      Ensures (Fits base (Obeys rule)) k (self u) fun m o => Obeys rule m u o) :
    Ensures (Fits base (Obeys rule)) l (Transformer.walk self t)
      fun k o => Obeys (walkedBy rule) k t o := by
  have hwalk := ensures_walk_children (stable_obeys h)
    (fun k u o ho => ho.elim fun _ hr => hr.2.mem) hb ht hself
  refine hwalk.imp fun k o hlk ho => ?_
  obtain ⟨n, os, hln, hnk, hos, ho⟩ := ho
  refine ⟨_, walkedBy_eq_some_iff.mpr ⟨_, List.forall₂_map_right_iff.mpr ?_, rfl⟩, ho.toAnswers⟩
  refine forall₂_imp_of_mem hos fun u hu p _ ⟨r, hr, hur⟩ => ?_
  rw [hur.tree_eq]
  exact h n k u r (le_trans hb hln) hnk (mem_of_mem_items (mem_of_le hln ht) hu) hr

end Obeys

/-- The outcome of each node is given by a function of its tree. The function may also look at the
strings of symbols. -/
def Follows (spec : SymbolTable → Tree → Outcome Tree) : Relation :=
  fun l t o => l.Answers (spec l.symbols t.tree) o

/-- The function makes nothing else of a tree when the table grows. -/
def SettledBy (base : SymbolTable) (spec : SymbolTable → Tree → Outcome Tree) : Prop :=
  ∀ (names later : SymbolTable) (t : Tree), base ≤ names → names ≤ later → t.KnownTo names →
    spec later t = spec names t

/-- A function of trees gives the outcomes, and each node is related to the node that it gives. -/
def FollowsWith (spec : SymbolTable → Tree → Outcome Tree) (S : Term → Term → Prop) : Relation :=
  fun l t o => l.AnswersWith (spec l.symbols t.tree) (S t) o

section Follows
variable {spec : SymbolTable → Tree → Outcome Tree} {S : Term → Term → Prop}

/-- A function of trees is a rule that never has to wait. -/
theorem follows_eq : Follows spec = Obeys fun names t => some (spec names t.tree) := by
  funext l t o
  simp [Follows, Obeys]

theorem followsWith_true : FollowsWith spec (fun _ _ => True) = Follows spec := by
  funext l t o
  exact propext ⟨fun h => h.toAnswers, fun h => h.with_true⟩

theorem lasting_of_settledBy (h : SettledBy base.symbols spec) :
    Lasting base fun names t => some (spec names t.tree) := by
  intro l k t r hb hlk ht hr
  have hspec := h _ _ _ (symbols_le hb) (symbols_le hlk)
    (Forest.knownTo_tree.mpr (knownTo_of_mem ht))
  exact (congrArg some hspec).trans hr

theorem stable_followsWith (h : SettledBy base.symbols spec) :
    Stable base (FollowsWith spec S) := by
  intro l k t o hb hlk ht ho
  have hspec := h _ _ _ (symbols_le hb) (symbols_le hlk)
    (Forest.knownTo_tree.mpr (knownTo_of_mem ht))
  rw [FollowsWith, hspec]
  exact ho.of_le hlk

/-- The children from whose terms a walked node is rebuilt: an ambiguity does without those that
fail. -/
def surviving (spec : Tree → Outcome Tree) (t : Term) : List Term :=
  if t.isAmbiguity then t.items.filter fun u => (spec u.tree).isOk else t.items

/-- Walking a node joins what the function makes of its children. If that succeeds, the node is
rebuilt from nodes to which those of its children are related that survive. -/
theorem ensures_walk (h : SettledBy base.symbols spec) (hb : base ≤ l) (ht : t ∈ l)
    {self : Term → Pass σ Outcome}
    (hself : ∀ k u, l ≤ k → u ∈ k → u.height < t.height →
      Ensures (Fits base (FollowsWith spec S)) k (self u) fun m o => FollowsWith spec S m u o) :
    Ensures (Fits base (FollowsWith spec S)) l (Transformer.walk self t) fun k o =>
      k.AnswersWith (t.tree.joined (t.tree.items.map (spec k.symbols)))
        (fun v => ∃ us, List.Forall₂ S (surviving (spec k.symbols) t) us ∧ t.Rebuilt us v) o := by
  have hwalk := ensures_walk_children (stable_followsWith h) (fun _ _ _ ho => ho.mem) hb ht hself
  refine hwalk.imp fun k o hlk ho => ?_
  obtain ⟨n, os, hln, hnk, hos, ho⟩ := ho
  have hitems : List.Forall₂ (FollowsWith spec S k) t.items os := by
    refine forall₂_imp_of_mem hos fun u hu p _ hp => ?_
    exact stable_followsWith h n k u p (le_trans hb hln) hnk
      (mem_of_mem_items (mem_of_le hln ht) hu) hp
  have hall : os.map (fun o => o.map Forest.tree) = t.tree.items.map (spec k.symbols) := by
    rw [Forest.items_tree, List.map_map, ← List.forall₂_eq_eq_eq, List.forall₂_map_right_iff,
      List.forall₂_map_left_iff]
    exact (hitems.imp fun u p hp => hp.tree_eq).flip
  have hkept : List.Forall₂ S (t.items.filter fun u => (spec k.symbols u.tree).isOk)
      (Outcome.terms os) := by
    refine Outcome.forall₂_filter_terms (hitems.imp fun u p hp => ⟨?_, hp.holds⟩)
    rw [← hp.tree_eq, Outcome.isOk_map]
  refine (hall ▸ ho).imp fun v hv hrebuilt => ⟨_, ?_, hrebuilt⟩
  unfold surviving
  split
  · exact hkept
  · rename_i ha
    have hresult := congrArg Outcome.result (hall ▸ ho.tree_eq)
    rw [Outcome.result_map, hv] at hresult
    have hok := Forest.isOk_of_joined (List.length_map _) (by rwa [Forest.isAmbiguity_tree])
      hresult.symm
    rwa [List.filter_eq_self.mpr fun u hu => ?_] at hkept
    refine hok _ (List.mem_map_of_mem ?_)
    rw [Forest.items_tree]
    exact List.mem_map_of_mem hu

end Follows

end Ledger
end ParseForest
