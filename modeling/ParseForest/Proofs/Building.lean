import ParseForest.Proofs.Ledger

/-!
# Actions that keep a ledger

An action ensures something from a ledger on if it succeeds in every state that
fits the ledger, leaves a state that fits a later ledger, and what it returns is
as said there. The constructors of terms are such actions, and what they return
is described by its tree.
-/
namespace ParseForest

namespace Forest

/-- The node with another mark and other children; a constant has none and stays. Of equal
alternatives the first is kept. -/
def renewed (t : Term) (mark : Tag) (items : List Term) : Term :=
  match t with
  | constant .. => t
  | application _ production _ span => application mark production items span
  | ambiguity _ _ span => ambiguity mark items.eraseDups span
  | grouping _ _ span => grouping mark items span

/-- The node `u` is `t` itself if `t` has the given children, and otherwise `t` renewed with
them. -/
def Rebuilt (t : Term) (items : List Term) (u : Term) : Prop :=
  items = t.items ∧ u = t ∨ items ≠ t.items ∧ ∃ mark, u = t.renewed mark items

section Rebuilt
variable {m : Tag} {ts us : List Term} {s : Span} {u : Term}

theorem rebuilt_constant {v : Symbol} {p : Production} (h : Rebuilt (constant m v p s) us u) :
    u = constant m v p s := by
  rcases h with ⟨-, rfl⟩ | ⟨-, -, rfl⟩ <;> rfl

theorem exists_of_rebuilt_application {p : Production}
    (h : Rebuilt (application m p ts s) us u) : ∃ n, u = application n p us s := by
  rcases h with ⟨rfl, rfl⟩ | ⟨-, n, rfl⟩
  · exact ⟨m, rfl⟩
  · exact ⟨n, rfl⟩

theorem exists_of_rebuilt_grouping (h : Rebuilt (grouping m ts s) us u) :
    ∃ n, u = grouping n us s := by
  rcases h with ⟨rfl, rfl⟩ | ⟨-, n, rfl⟩
  · exact ⟨m, rfl⟩
  · exact ⟨n, rfl⟩

end Rebuilt

end Forest

namespace Ledger

section Ensures
variable {S α β : Type}

/-- From a state that fits the ledger the action ends in one that fits a later ledger, with a result
as described by `post`. What it means to fit is given by `fits`. -/
def Ensures (fits : Ledger → S → Prop) (l : Ledger) (action : StateT S (Except InternalError) α)
    (post : Ledger → α → Prop) : Prop :=
  ∀ s, fits l s → ∃ a s' k, action.run s = .ok (a, s') ∧ l ≤ k ∧ fits k s' ∧ post k a

variable {fits : Ledger → S → Prop} {l : Ledger} {post post' : Ledger → α → Prop}

theorem Ensures.pure {a : α} (h : post l a) :
    Ensures fits l (pure a : StateT S (Except InternalError) α) post :=
  fun s hs => ⟨a, s, l, rfl, le_refl l, hs, h⟩

theorem Ensures.bind {action : StateT S (Except InternalError) α}
    {next : α → StateT S (Except InternalError) β} {goal : Ledger → β → Prop}
    (h : Ensures fits l action post)
    (hn : ∀ k a, l ≤ k → post k a → Ensures fits k (next a) goal) :
    Ensures fits l (action >>= next) goal := by
  intro s hs
  obtain ⟨a, s', k, hrun, hlk, hs', ha⟩ := h s hs
  obtain ⟨b, s'', m, hrun', hkm, hs'', hb⟩ := hn k a hlk ha s' hs'
  refine ⟨b, s'', m, ?_, le_trans hlk hkm, hs'', hb⟩
  rw [StateT.run_bind, hrun]
  exact hrun'

theorem Ensures.imp {action : StateT S (Except InternalError) α} (h : Ensures fits l action post)
    (hp : ∀ k a, l ≤ k → post k a → post' k a) : Ensures fits l action post' := by
  intro s hs
  obtain ⟨a, s', k, hrun, hlk, hs', ha⟩ := h s hs
  exact ⟨a, s', k, hrun, hlk, hs', hp k a hlk ha⟩

/-- An action on each member of a list. What holds of a result must go on to hold. -/
theorem Ensures.mapM {action : α → StateT S (Except InternalError) β} {xs : List α}
    {holds : Ledger → α → β → Prop}
    (hstay : ∀ {k m : Ledger} {x b}, l ≤ k → k ≤ m → holds k x b → holds m x b)
    (h : ∀ x ∈ xs, ∀ k, l ≤ k → Ensures fits k (action x) fun m b => holds m x b) :
    Ensures fits l (xs.mapM action) fun m bs => List.Forall₂ (holds m) xs bs := by
  induction xs generalizing l with
  | nil => exact Ensures.pure .nil
  | cons x xs ih =>
    rw [List.mapM_cons]
    refine (h x List.mem_cons_self l (le_refl l)).bind fun k b hlk hb => ?_
    have htail := ih (fun hkm => hstay (le_trans hlk hkm)) fun x' hx' m hkm =>
      h x' (List.mem_cons_of_mem _ hx') m (le_trans hlk hkm)
    refine htail.bind fun m bs hkm hbs => ?_
    exact Ensures.pure (.cons (hstay hlk hkm hb) hbs)

end Ensures

/-- The session is the one that the ledger describes. -/
def Describes (l : Ledger) (s : Session) : Prop := s = l.session

/-- What the action ensures when it is run in the session of a ledger. -/
abbrev Yields {α : Type} (l : Ledger) (action : Build α) (post : Ledger → α → Prop) : Prop :=
  Ensures Describes l action post

theorem Yields.run {α : Type} {l : Ledger} {action : Build α} {post : Ledger → α → Prop}
    (h : l.Yields action post) :
    ∃ a k, action.run l.session = .ok (a, k.session) ∧ l ≤ k ∧ post k a := by
  obtain ⟨a, s, k, hrun, hlk, hs, ha⟩ := h l.session rfl
  exact ⟨a, k, hs ▸ hrun, hlk, ha⟩

theorem yields_of_run {α : Type} {l k : Ledger} {action : Build α} {post : Ledger → α → Prop}
    {a : α} (h : action.run l.session = .ok (a, k.session)) (hlk : l ≤ k) (ha : post k a) :
    l.Yields action post := by
  intro s hs
  exact ⟨a, k.session, k, hs ▸ h, hlk, rfl, ha⟩

/-- The ledger in which nothing has happened. -/
def initial : Ledger where
  symbols := .initial
  nodes := []
  reserved := SymbolTable.le_refl _
  tag_eq i t h := by simp at h
  items_mem t h := by simp at h
  wellFormed t h := by simp at h
  known t h := by simp at h

/-- A string is interned. -/
def intern (l : Ledger) (name : String) : Ledger where
  symbols := (l.symbols.intern name).2
  nodes := l.nodes
  reserved := SymbolTable.le_trans l.reserved (SymbolTable.le_intern _ _)
  tag_eq := l.tag_eq
  items_mem := l.items_mem
  wellFormed := l.wellFormed
  known t ht s hs := SymbolTable.mem_of_le (SymbolTable.le_intern _ _) (l.known t ht s hs)

/-- What a new node has to fulfil. -/
structure Fresh (l : Ledger) (t : Term) : Prop where
  tag_eq : t.mark = ⟨l.nodes.length, Fingerprint.nodes.of t⟩
  items_mem : ∀ u ∈ t.items, u ∈ l
  wellFormed : t.NodeWellFormed
  known : ∀ s ∈ t.nodeSymbols, s ∈ l.symbols

/-- A node is made. -/
def push (l : Ledger) (t : Term) (h : l.Fresh t) : Ledger where
  symbols := l.symbols
  nodes := l.nodes ++ [t]
  reserved := l.reserved
  tag_eq := by
    intro i u hu
    rcases Nat.lt_trichotomy i l.nodes.length with hi | hi | hi
    · rw [List.getElem?_append_left hi] at hu
      exact l.tag_eq i u hu
    · rw [List.getElem?_append_right (Nat.le_of_eq hi.symm), hi] at hu
      have hut : t = u := by simpa using hu
      rw [← hut, h.tag_eq, hi]
    · have hlen : (l.nodes ++ [t]).length ≤ i := by
        rw [List.length_append]
        exact hi
      rw [List.getElem?_eq_none hlen] at hu
      cases hu
  items_mem := by
    intro u hu v hv
    rcases List.mem_append.mp hu with hu | hu
    · have hold := l.items_mem u hu v hv
      exact ⟨List.mem_append_left _ hold.1, hold.2⟩
    · obtain rfl := List.mem_singleton.mp hu
      have hmem := h.items_mem v hv
      have hn : u.number = l.nodes.length := congrArg Tag.number h.tag_eq
      refine ⟨List.mem_append_left _ hmem, ?_⟩
      rw [hn]
      exact number_lt hmem
  wellFormed := by
    intro u hu
    rcases List.mem_append.mp hu with hu | hu
    · exact l.wellFormed u hu
    · obtain rfl := List.mem_singleton.mp hu
      exact h.wellFormed
  known := by
    intro u hu
    rcases List.mem_append.mp hu with hu | hu
    · exact l.known u hu
    · obtain rfl := List.mem_singleton.mp hu
      exact h.known

variable {l : Ledger}

theorem le_push {t : Term} (h : l.Fresh t) : l ≤ l.push t h :=
  ⟨SymbolTable.le_refl _, List.prefix_append _ _⟩

theorem mem_push {t : Term} (h : l.Fresh t) : t ∈ l.push t h :=
  List.mem_append_right _ (List.mem_singleton.mpr rfl)

theorem session_push {t : Term} (h : l.Fresh t) :
    (l.push t h).session = { l.session with nodes := l.session.nodes + 1 } := by
  simp [session, push]

/-- An action that makes one node and returns it. -/
theorem yields_push {action : Build Term} {t : Term} {post : Ledger → Term → Prop}
    (hrun : action.run l.session =
      .ok (t, { l.session with nodes := l.session.nodes + 1 }))
    (h : l.Fresh t) (hp : ∀ k, l ≤ k → t ∈ k → post k t) : l.Yields action post := by
  rw [← session_push h] at hrun
  exact yields_of_run hrun (le_push h) (hp _ (le_push h) (mem_push h))

theorem fingerprints_eq {ts : List Term} (h : ∀ t ∈ ts, t ∈ l) :
    ts.map Term.fingerprint = ts.map Fingerprint.nodes.of :=
  List.map_congr_left fun t ht => fingerprint_eq (h t ht)

/-- The term is a node of the ledger and has the given tree. -/
structure Stores (l : Ledger) (r : Tree) (t : Term) : Prop where
  mem : t ∈ l
  tree_eq : t.tree = r

theorem Stores.of_le {k : Ledger} {r : Tree} {t : Term} (h : l.Stores r t) (hlk : l ≤ k) :
    k.Stores r t := ⟨mem_of_le hlk h.mem, h.tree_eq⟩

theorem stores_tree {t : Term} (ht : t ∈ l) : l.Stores t.tree t := ⟨ht, rfl⟩

theorem eraseDups_map_tree {ts : List Term} (h : ∀ t ∈ ts, t ∈ l) :
    (ts.map Forest.tree).eraseDups = ts.eraseDups.map Forest.tree := by
  refine eraseDups_map fun t ht u hu => ?_
  rw [Forest.tree_beq, Forest.agrees_tree, beq_eq_agrees (h t ht) (h u hu)]

theorem yields_constant {value : Symbol} {p : Production} {span : Span} (hv : value ∈ l.symbols)
    (hp : p.KnownTo l.symbols) (hs : span.context ∈ l.symbols) :
    l.Yields (Build.constant value p span) fun k t => k.Stores (.constant () value p span) t := by
  refine yields_push (Build.constant_run value p span l.session) ?_ fun k _ hk => ⟨hk, rfl⟩
  refine ⟨?_, by simp [Forest.items], trivial, ?_⟩
  · rw [Summary.of]
    rfl
  · intro s hm
    simp only [Forest.nodeSymbols, List.mem_cons] at hm
    rcases hm with rfl | rfl | hm
    · exact hv
    · exact hs
    · exact hp s hm

/-- An application is made of just the given items. -/
theorem yields_made_application {p : Production} {items : List Term} {span : Span}
    (hi : ∀ t ∈ items, t ∈ l) (hlen : items.length = p.arity) (hp : p.KnownTo l.symbols)
    (hs : span.context ∈ l.symbols) : l.Yields (Build.application p items span)
      fun k t => t ∈ k ∧ ∃ mark, t = .application mark p items span := by
  refine yields_push (Build.application_run hlen span l.session) ?_ fun k _ hk => ⟨hk, _, rfl⟩
  refine ⟨?_, hi, hlen, ?_⟩
  · rw [Summary.of, Summary.ofAll_eq, ← fingerprints_eq hi]
    rfl
  · intro s hm
    simp only [Forest.nodeSymbols, List.mem_cons] at hm
    rcases hm with rfl | hm
    · exact hs
    · exact hp s hm

theorem yields_application {p : Production} {items : List Term} {span : Span}
    (hi : ∀ t ∈ items, t ∈ l) (hlen : items.length = p.arity) (hp : p.KnownTo l.symbols)
    (hs : span.context ∈ l.symbols) : l.Yields (Build.application p items span)
      fun k t => k.Stores (.application () p (items.map Forest.tree) span) t := by
  refine (yields_made_application hi hlen hp hs).imp fun k t _ ht => ?_
  obtain ⟨hk, m, rfl⟩ := ht
  exact ⟨hk, Forest.tree_application m p items span⟩

theorem yields_made_ambiguity {items : List Term} {span : Span} (hi : ∀ t ∈ items, t ∈ l)
    (hs : span.context ∈ l.symbols) : l.Yields (Build.ambiguity items span)
      fun k t => t ∈ k ∧ ∃ mark, t = .ambiguity mark items.eraseDups span := by
  have hk : ∀ t ∈ items.eraseDups, t ∈ l := fun t ht => hi t (mem_of_mem_eraseDups ht)
  refine yields_push (Build.ambiguity_run items span l.session) ?_ fun k _ hm => ⟨hm, _, rfl⟩
  refine ⟨?_, hk, ?_, ?_⟩
  · rw [Summary.of, Summary.ofAll_eq, ← fingerprints_eq hk]
    rfl
  · refine (pairwise_eraseDups items).imp_of_mem fun {t u} ht hu hne => ?_
    rwa [beq_eq_agrees (hk u hu) (hk t ht)] at hne
  · intro s hm
    obtain rfl := List.mem_singleton.mp hm
    exact hs

theorem yields_ambiguity {items : List Term} {span : Span} (hi : ∀ t ∈ items, t ∈ l)
    (hs : span.context ∈ l.symbols) : l.Yields (Build.ambiguity items span)
      fun k t => k.Stores (.ambiguity () (items.map Forest.tree).eraseDups span) t := by
  refine (yields_made_ambiguity hi hs).imp fun k t _ ht => ?_
  obtain ⟨hk, m, rfl⟩ := ht
  rw [eraseDups_map_tree hi]
  exact ⟨hk, Forest.tree_ambiguity m _ span⟩

theorem yields_made_grouping {items : List Term} {span : Span} (hi : ∀ t ∈ items, t ∈ l)
    (hs : span.context ∈ l.symbols) : l.Yields (Build.grouping items span)
      fun k t => t ∈ k ∧ ∃ mark, t = .grouping mark items span := by
  refine yields_push (Build.grouping_run items span l.session) ?_ fun k _ hm => ⟨hm, _, rfl⟩
  refine ⟨?_, hi, trivial, ?_⟩
  · rw [Summary.of, Summary.ofAll_eq, ← fingerprints_eq hi]
    rfl
  · intro s hm
    obtain rfl := List.mem_singleton.mp hm
    exact hs

theorem yields_grouping {items : List Term} {span : Span} (hi : ∀ t ∈ items, t ∈ l)
    (hs : span.context ∈ l.symbols) : l.Yields (Build.grouping items span)
      fun k t => k.Stores (.grouping () (items.map Forest.tree) span) t := by
  refine (yields_made_grouping hi hs).imp fun k t _ ht => ?_
  obtain ⟨hk, m, rfl⟩ := ht
  exact ⟨hk, Forest.tree_grouping m items span⟩

theorem yields_emptyMarker {span : Span} (hs : span.context ∈ l.symbols) :
    l.Yields (Build.emptyMarker span) fun k t => k.Stores (.grouping () [] span) t :=
  yields_grouping (fun _ h => absurd h List.not_mem_nil) hs

/-- A node made from `t` with other children. -/
theorem yields_renewed {t : Term} {items : List Term} (ht : t ∈ l) (hi : ∀ u ∈ items, u ∈ l)
    (hlen : ∀ m p us s, t = .application m p us s → items.length = us.length) :
    l.Yields (Build.withItems t items) fun k u => u ∈ k ∧ ∃ mark, u = t.renewed mark items := by
  have hs : t.span.context ∈ l.symbols := (knownTo_of_mem ht).context
  cases t with
  | constant m v p s => exact Ensures.pure ⟨ht, m, rfl⟩
  | application m p us s =>
    have harity : us.length = p.arity := l.wellFormed _ ht
    have hp : p.KnownTo l.symbols := (knownTo_of_mem ht).production rfl
    exact yields_made_application hi ((hlen m p us s rfl).trans harity) hp hs
  | ambiguity m us s => exact yields_made_ambiguity hi hs
  | grouping m us s => exact yields_made_grouping hi hs

theorem tree_renewed {t : Term} {items : List Term} (hi : ∀ u ∈ items, u ∈ l) (mark : Tag) :
    (t.renewed mark items).tree = t.tree.withItems (items.map Forest.tree) := by
  cases t with
  | ambiguity m us s =>
    rw [Forest.tree_ambiguity, Forest.withItems_ambiguity, eraseDups_map_tree hi]
    exact Forest.tree_ambiguity mark _ s
  | constant => rfl
  | application m p us s =>
    rw [Forest.tree_application]
    exact Forest.tree_application mark p items s
  | grouping m us s =>
    rw [Forest.tree_grouping]
    exact Forest.tree_grouping mark items s

theorem tree_of_rebuilt {t u : Term} {items : List Term} (ht : t ∈ l) (hi : ∀ u ∈ items, u ∈ l)
    (h : t.Rebuilt items u) : u.tree = t.tree.withItems (items.map Forest.tree) := by
  rcases h with ⟨rfl, rfl⟩ | ⟨-, m, rfl⟩
  · have hw : u.tree.NodeWellFormed := Forest.nodeWellFormed_tree.mpr (l.wellFormed u ht)
    rw [← Forest.items_tree, Forest.withItems_self hw]
  · exact tree_renewed hi m

theorem yields_rebuilt {t : Term} {items : List Term} (ht : t ∈ l) (hi : ∀ u ∈ items, u ∈ l)
    (hlen : ∀ m p us s, t = .application m p us s → items.length = us.length) :
    l.Yields (Build.rebuild t items) fun k u => u ∈ k ∧ t.Rebuilt items u := by
  unfold Build.rebuild
  split
  · rename_i hsame
    have he : t.items = items :=
      eq_of_sameNodes (fun u hu => mem_of_mem_items ht hu) hi hsame
    exact Ensures.pure ⟨ht, .inl ⟨he.symm, rfl⟩⟩
  · rename_i hsame
    have hne : items ≠ t.items := by
      rintro rfl
      exact hsame (Term.sameNodes_iff.mpr rfl)
    exact (yields_renewed ht hi hlen).imp fun k u _ hu => ⟨hu.1, .inr ⟨hne, hu.2⟩⟩

theorem Yields.exists_stores {k : Ledger} {action : Build Term} {r : Tree}
    (h : k.Yields action fun m t => m.Stores r t) (hlk : l ≤ k) :
    ∃ m t, l ≤ m ∧ m.Stores r t := by
  obtain ⟨t, m, _, hkm, ht⟩ := h.run
  exact ⟨m, t, le_trans hlk hkm, ht⟩

/-- If each tree of a list can be built, wherever its symbols are known, then so can all. -/
theorem exists_forall₂_stores {rs : List Tree}
    (h : ∀ r ∈ rs, ∀ {l : Ledger}, r.KnownTo l.symbols → ∃ k t, l ≤ k ∧ k.Stores r t)
    (hk : ∀ r ∈ rs, r.KnownTo l.symbols) :
    ∃ k, ∃ ts : List Term, l ≤ k ∧ (∀ t ∈ ts, t ∈ k) ∧ ts.map Forest.tree = rs := by
  induction rs generalizing l with
  | nil => exact ⟨l, [], le_refl l, fun _ h => absurd h List.not_mem_nil, rfl⟩
  | cons r rs ih =>
    obtain ⟨hr, hrs⟩ := List.forall_mem_cons.mp h
    obtain ⟨hkr, hkrs⟩ := List.forall_mem_cons.mp hk
    obtain ⟨k, t, hlk, ht⟩ := hr hkr
    obtain ⟨m, ts, hkm, hmem, htree⟩ := ih hrs fun r hr => (hkrs r hr).of_le (symbols_le hlk)
    have hall := List.forall_mem_cons.mpr ⟨mem_of_le hkm ht.mem, hmem⟩
    exact ⟨m, t :: ts, le_trans hlk hkm, hall, by rw [List.map_cons, ht.tree_eq, htree]⟩

/-- Every tree that constructors accept can be built, if its symbols are known. -/
theorem exists_stores {r : Tree} (hw : r.WellFormed) (hk : r.KnownTo l.symbols) :
    ∃ k t, l ≤ k ∧ k.Stores r t := by
  have items {rs : List Tree}
      (ih : ∀ r ∈ rs, ∀ {l : Ledger}, r.WellFormed → r.KnownTo l.symbols →
        ∃ k t, l ≤ k ∧ k.Stores r t) {l : Ledger} (hw : ∀ r ∈ rs, r.WellFormed)
      (hk : ∀ r ∈ rs, r.KnownTo l.symbols) :
      ∃ k, ∃ ts : List Term, l ≤ k ∧ (∀ t ∈ ts, t ∈ k) ∧ ts.map Forest.tree = rs :=
    exists_forall₂_stores (fun r hr {_} => ih r hr (hw r hr)) hk
  induction r using Forest.induction generalizing l with
  | constant m v p s =>
    have hv : v ∈ l.symbols := hk.self v (by simp [Forest.nodeSymbols])
    exact (yields_constant hv (hk.production rfl) hk.context).exists_stores (le_refl l)
  | application m p rs s ih =>
    obtain ⟨k, ts, hlk, hmem, rfl⟩ :=
      items ih (fun r hr => hw.items hr) fun r hr => hk.of_mem_items hr
    have harity : (ts.map Forest.tree).length = p.arity := hw.self
    rw [List.length_map] at harity
    have hk' := hk.of_le (symbols_le hlk)
    exact (yields_application hmem harity (hk'.production rfl) hk'.context).exists_stores hlk
  | ambiguity m rs s ih =>
    obtain ⟨k, ts, hlk, hmem, rfl⟩ :=
      items ih (fun r hr => hw.items hr) fun r hr => hk.of_mem_items hr
    have hbuild := yields_ambiguity hmem (hk.of_le (symbols_le hlk)).context
    rw [eraseDups_eq_self hw.self] at hbuild
    exact hbuild.exists_stores hlk
  | grouping m rs s ih =>
    obtain ⟨k, ts, hlk, hmem, rfl⟩ :=
      items ih (fun r hr => hw.items hr) fun r hr => hk.of_mem_items hr
    exact (yields_grouping hmem (hk.of_le (symbols_le hlk)).context).exists_stores hlk

end Ledger
end ParseForest
