import ParseForest.Proofs.Tree
import ParseForest.Term

/-!
# Ledgers

A session keeps the number of nodes made so far but not the nodes. A ledger is a
session together with the list of all nodes that were made in it, in order. Its
fields say what every constructor sees to: a node is made of earlier nodes, its
tag is the one that belongs to it, and its symbols are in the table. Nodes of
one ledger with the same number are the same node, so there equality of terms is
agreement.
-/
namespace ParseForest

namespace SymbolTable

/-- The symbols of a table are the positions of its strings. -/
instance : Membership Symbol SymbolTable := ⟨fun t s => s.index < t.size⟩

instance {t : SymbolTable} {s : Symbol} : Decidable (s ∈ t) :=
  inferInstanceAs (Decidable (s.index < t.size))

/-- A later state of a table still has every string under the same symbol. -/
instance : LE SymbolTable := ⟨fun t u => ∀ s name, t.name? s = some name → u.name? s = some name⟩

variable {t u v : SymbolTable} {s : Symbol}

theorem mem_iff : s ∈ t ↔ ∃ name, t.name? s = some name := by
  rw [← Option.ne_none_iff_exists', ne_eq, name?_eq_none_iff]
  exact Nat.not_le.symm

theorem le_refl (t : SymbolTable) : t ≤ t := fun _ _ h => h

theorem le_trans (htu : t ≤ u) (huv : u ≤ v) : t ≤ v := fun s name h => huv s name (htu s name h)

theorem le_intern (t : SymbolTable) (name : String) : t ≤ (t.intern name).2 :=
  fun _ _ h => name?_intern_of_some name h

theorem mem_of_le (h : t ≤ u) (hs : s ∈ t) : s ∈ u := by
  obtain ⟨name, hn⟩ := mem_iff.mp hs
  exact mem_iff.mpr ⟨name, h s name hn⟩

/-- A symbol of a table stands for the same string later. -/
theorem resolve_of_le (h : t ≤ u) (hs : s ∈ t) : u.resolve s = t.resolve s := by
  obtain ⟨name, hn⟩ := mem_iff.mp hs
  rw [resolve_eq_ok_iff.mpr hn, resolve_eq_ok_iff.mpr (h s name hn)]

end SymbolTable

def ProductionItem.symbol : ProductionItem → Symbol
  | terminal token => token
  | nonterminal sort => sort.symbol

namespace Production

/-- All symbols that a production is made of. -/
def symbols (p : Production) : List Symbol :=
  p.sort.symbol :: (p.items.map ProductionItem.symbol ++ (p.label.map Label.symbol).toList
    ++ p.attributes.toList)

/-- The symbols of the production are in the table. -/
def KnownTo (names : SymbolTable) (p : Production) : Prop := ∀ s ∈ p.symbols, s ∈ names

instance {names : SymbolTable} {p : Production} : Decidable (p.KnownTo names) :=
  inferInstanceAs (Decidable (∀ s ∈ p.symbols, s ∈ names))

theorem KnownTo.of_le {names later : SymbolTable} {p : Production} (h : p.KnownTo names)
    (hle : names ≤ later) : p.KnownTo later := fun s hs => SymbolTable.mem_of_le hle (h s hs)

theorem KnownTo.label {names : SymbolTable} {p : Production} {l : Label} (h : p.KnownTo names)
    (hl : p.label = some l) : l.symbol ∈ names := h l.symbol (by simp [symbols, hl])

end Production

namespace Forest
variable {ι : Type}

/-- The symbols that a node has apart from its children. -/
def nodeSymbols : Forest ι → List Symbol
  | constant _ value production span => value :: span.context :: production.symbols
  | application _ production _ span => span.context :: production.symbols
  | ambiguity _ _ span | grouping _ _ span => [span.context]

/-- The symbols of everything that occurs in the forest are in the table. -/
def KnownTo (names : SymbolTable) (t : Forest ι) : Prop :=
  Everywhere (fun u => ∀ s ∈ u.nodeSymbols, s ∈ names) t

instance {names : SymbolTable} {t : Forest ι} : Decidable (t.KnownTo names) :=
  inferInstanceAs (Decidable (Everywhere _ t))

theorem KnownTo.of_le {names later : SymbolTable} {t : Forest ι} (h : t.KnownTo names)
    (hle : names ≤ later) : t.KnownTo later :=
  Everywhere.imp h fun _ hu s hs => SymbolTable.mem_of_le hle (hu s hs)

theorem KnownTo.production {names : SymbolTable} {t : Forest ι} {p : Production}
    (h : t.KnownTo names) (hp : t.production? = some p) : p.KnownTo names := by
  intro s hs
  refine h.self s ?_
  cases t <;> simp_all [production?, nodeSymbols]

theorem KnownTo.context {names : SymbolTable} {t : Forest ι} (h : t.KnownTo names) :
    t.span.context ∈ names := by
  refine h.self _ ?_
  cases t <;> simp [span, nodeSymbols]

@[simp] theorem nodeSymbols_tree (t : Forest ι) : t.tree.nodeSymbols = t.nodeSymbols := by
  cases t <;> simp [nodeSymbols]

theorem nodeWellFormed_tree {t : Forest ι} : t.tree.NodeWellFormed ↔ t.NodeWellFormed := by
  cases t <;> simp [NodeWellFormed, List.pairwise_map, agrees_tree]

theorem KnownTo.withItems {names : SymbolTable} {t : Tree} {items : List Tree}
    (ht : t.KnownTo names) (hi : ∀ u ∈ items, u.KnownTo names) :
    (t.withItems items).KnownTo names := by
  refine everywhere_iff.mpr ⟨?_, fun u hu => hi u (mem_of_mem_items_withItems hu)⟩
  cases t <;> exact ht.self

/-- What holds of every node of a forest, whatever the marks, holds of every node of its tree. -/
theorem everywhere_tree {P : Forest ι → Prop} {Q : Tree → Prop} (hPQ : ∀ u, P u ↔ Q u.tree)
    {t : Forest ι} : Everywhere Q t.tree ↔ Everywhere P t := by
  constructor
  · intro h u hu
    exact (hPQ u).mpr (h u.tree (occurs_tree.mpr ⟨u, hu, rfl⟩))
  · intro h u hu
    obtain ⟨v, hv, rfl⟩ := occurs_tree.mp hu
    exact (hPQ v).mp (h v hv)

theorem wellFormed_tree {t : Forest ι} : t.tree.WellFormed ↔ t.WellFormed :=
  everywhere_tree fun _ => nodeWellFormed_tree.symm

theorem knownTo_tree {names : SymbolTable} {t : Forest ι} :
    t.tree.KnownTo names ↔ t.KnownTo names :=
  everywhere_tree fun u => by rw [nodeSymbols_tree]

end Forest

structure Ledger where
  symbols : SymbolTable
  /-- All nodes, the oldest first. -/
  nodes : List Term
  reserved : SymbolTable.initial ≤ symbols
  tag_eq : ∀ (i : Nat) (t : Term), nodes[i]? = some t → t.mark = ⟨i, Fingerprint.nodes.of t⟩
  items_mem : ∀ t ∈ nodes, ∀ u ∈ t.items, u ∈ nodes ∧ Term.number u < t.number
  wellFormed : ∀ t ∈ nodes, t.NodeWellFormed
  known : ∀ t ∈ nodes, ∀ s ∈ t.nodeSymbols, s ∈ symbols

namespace Ledger

/-- The session that the ledger describes. -/
def session (l : Ledger) : Session := ⟨l.symbols, l.nodes.length⟩

instance : Membership Term Ledger := ⟨fun l t => t ∈ l.nodes⟩

/-- A later ledger of the same session: nothing is lost. -/
instance : LE Ledger := ⟨fun l k => l.symbols ≤ k.symbols ∧ l.nodes <+: k.nodes⟩

variable {l k m : Ledger} {t u : Term}

theorem le_refl (l : Ledger) : l ≤ l := ⟨SymbolTable.le_refl _, List.prefix_rfl⟩

theorem le_trans (hlk : l ≤ k) (hkm : k ≤ m) : l ≤ m :=
  ⟨SymbolTable.le_trans hlk.1 hkm.1, hlk.2.trans hkm.2⟩

theorem symbols_le (h : l ≤ k) : l.symbols ≤ k.symbols := h.1

theorem mem_of_le (h : l ≤ k) (ht : t ∈ l) : t ∈ k := h.2.subset ht

/-- A node stands at the position that its number says. -/
theorem getElem?_number (ht : t ∈ l) : l.nodes[t.number]? = some t := by
  obtain ⟨i, hi⟩ := List.mem_iff_getElem?.mp ht
  have hn : t.number = i := congrArg Tag.number (l.tag_eq i t hi)
  rw [hn, hi]

theorem number_lt (ht : t ∈ l) : t.number < l.nodes.length :=
  (List.getElem?_eq_some_iff.mp (getElem?_number ht)).1

theorem fingerprint_eq (ht : t ∈ l) : t.fingerprint = Fingerprint.nodes.of t :=
  congrArg Tag.fingerprint (l.tag_eq _ t (getElem?_number ht))

/-- Numbers identify nodes. -/
theorem eq_of_number_eq (ht : t ∈ l) (hu : u ∈ l) (h : t.number = u.number) : t = u := by
  have hget := getElem?_number ht
  rw [h, getElem?_number hu] at hget
  exact (Option.some.inj hget).symm

theorem mem_of_mem_items (ht : t ∈ l) (hu : u ∈ t.items) : u ∈ l := (l.items_mem t ht u hu).1

theorem mem_of_occurs (ht : t ∈ l) (hu : u.Occurs t) : u ∈ l := by
  induction hu with
  | refl => exact ht
  | child hv _ ih => exact ih (mem_of_mem_items ht hv)

theorem wellFormed_of_mem (ht : t ∈ l) : t.WellFormed :=
  fun _ hu => l.wellFormed _ (mem_of_occurs ht hu)

theorem knownTo_of_mem (ht : t ∈ l) : t.KnownTo l.symbols :=
  fun _ hu => l.known _ (mem_of_occurs ht hu)

/-- The number of a node bounds the way down from it. -/
theorem height_le_number (ht : t ∈ l) : t.height ≤ t.number := by
  induction t using Forest.induction with
  | constant m v p s => exact Forest.height_le_iff.mpr (by simp [Forest.items])
  | application m p ts s ih | ambiguity m ts s ih | grouping m ts s ih =>
    refine Forest.height_le_iff.mpr fun u hu => ?_
    have hlt := (l.items_mem _ ht u hu).2
    have hle := ih u hu (mem_of_mem_items ht hu)
    omega

/-- Equality of two terms of a ledger, which looks at tags first, is agreement. -/
theorem beq_eq_agrees (ht : t ∈ l) (hu : u ∈ l) : (t == u) = t.agrees u := by
  rw [Term.beq_eq]
  refine Forest.agreesBy_eq_agrees fun x y hx hy answer h => ?_
  have hxl := mem_of_occurs ht hx
  have hyl := mem_of_occurs hu hy
  unfold Term.agreement? at h
  split at h
  · rename_i hn
    have hxy : x = y := eq_of_number_eq hxl hyl (Term.sameNode_iff.mp hn)
    rw [hxy, Forest.agrees_refl]
    exact (Option.some.inj h).symm
  · split at h
    · cases h
    · rename_i hf
      rw [← Option.some.inj h, eq_comm, Bool.eq_false_iff]
      intro hxy
      rw [fingerprint_eq hxl, fingerprint_eq hyl] at hf
      exact hf (Forest.fingerprint_eq_of_agrees (wellFormed_of_mem hxl) hxy)

/-- No two alternatives of an ambiguity are equal. -/
theorem pairwise_items_of_isAmbiguity (ht : t ∈ l) (ha : t.isAmbiguity) :
    t.items.Pairwise fun u v => ¬u == v := by
  obtain ⟨m, ts, s, rfl⟩ := Forest.isAmbiguity_iff.mp ha
  refine List.Pairwise.imp_of_mem (l := ts) ?_ (l.wellFormed _ ht)
  intro u v hu hv hne huv
  have hul := mem_of_mem_items ht hu
  rw [beq_eq_agrees hul (mem_of_mem_items ht hv)] at huv
  exact hne (Forest.agrees_symm (wellFormed_of_mem hul) huv)

/-- The same nodes are the same terms. -/
theorem eq_of_sameNodes {ts us : List Term} (ht : ∀ t ∈ ts, t ∈ l) (hu : ∀ u ∈ us, u ∈ l)
    (h : Term.sameNodes ts us) : ts = us := by
  rw [Term.sameNodes_iff, ← List.forall₂_eq_eq_eq, List.forall₂_map_left_iff,
    List.forall₂_map_right_iff] at h
  rw [← List.forall₂_eq_eq_eq]
  exact forall₂_imp_of_mem h fun t hm u hm' hn => eq_of_number_eq (ht t hm) (hu u hm') hn

end Ledger
end ParseForest
