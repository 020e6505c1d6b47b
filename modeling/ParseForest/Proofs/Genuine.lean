import ParseForest.Proofs.CleanedReadings
import ParseForest.Proofs.CompletedReadings
import ParseForest.Proofs.Disambiguated

/-!
# Ambiguities that survive

Every ambiguity that cleaning leaves has at least two alternatives. Completion
keeps the alternatives apart from each other or makes some of them equal, and then
only one of these remains. So the ambiguities of the result are all genuine just
if every ambiguity that cleaning leaves has two alternatives that stay different.
What becomes of an alternative depends on whether the ambiguity stands in the slot
of a list sort, so this is said of ambiguities together with where they stand.
-/
namespace ParseForest
namespace Forest

/-- The node is not an ambiguity with fewer than two alternatives. -/
def Genuine {ι : Type} (t : Forest ι) : Prop := t.isAmbiguity → 2 ≤ t.items.length

theorem genuine_tree {ι : Type} {t : Forest ι} : t.tree.Genuine ↔ t.Genuine := by
  rw [Genuine, Genuine, isAmbiguity_tree, items_tree, List.length_map]

/-- The node is not an ambiguity between no alternatives. -/
def HasAlternative {ι : Type} (t : Forest ι) : Prop := t.isAmbiguity → t.items ≠ []

theorem hasAlternative_tree {ι : Type} {t : Forest ι} :
    t.tree.HasAlternative ↔ t.HasAlternative := by
  rw [HasAlternative, HasAlternative, isAmbiguity_tree, items_tree, ne_eq, List.map_eq_nil_iff]

theorem Clean.hasAlternative {t : Tree} (h : t.Clean) : Everywhere HasAlternative t := by
  refine h.nodes.imp fun u hu => ?_
  cases u with
  | ambiguity m ts s => exact fun _ => List.ne_nil_of_length_pos (Nat.lt_of_succ_lt hu.1)
  | _ => exact fun ha => absurd ha (by simp [isAmbiguity])

/-- The trees `xs` are some of `ys`, no two of them equal, and each of `ys` equals one of them. -/
structure Represents (xs ys : List Tree) : Prop where
  mem : ∀ x ∈ xs, x ∈ ys
  exists_agrees : ∀ y ∈ ys, ∃ x ∈ xs, y.agrees x
  pairwise : xs.Pairwise fun x x' => ¬x'.agrees x

theorem represents_eraseDups (ts : List Tree) : Represents ts.eraseDups ts where
  mem _ hx := mem_of_mem_eraseDups hx
  exists_agrees _ hy := exists_agrees_of_mem hy
  pairwise := pairwise_eraseDups ts

section Represents
variable {xs ys : List Tree}

/-- To represent the images of representatives is to represent the images of all. -/
theorem Represents.map {us : List Tree} {f : Tree → Tree} (hxs : Represents xs (us.map f))
    (hus : Represents us ys) (hf : ∀ y ∈ ys, ∀ z ∈ ys, y.agrees z → (f y).agrees (f z)) :
    Represents xs (ys.map f) where
  mem x hx := by
    obtain ⟨u, hu, rfl⟩ := List.mem_map.mp (hxs.mem x hx)
    exact List.mem_map_of_mem (hus.mem u hu)
  exists_agrees z hz := by
    obtain ⟨y, hy, rfl⟩ := List.mem_map.mp hz
    obtain ⟨u, hu, hyu⟩ := hus.exists_agrees y hy
    obtain ⟨x, hx, hux⟩ := hxs.exists_agrees (f u) (List.mem_map_of_mem hu)
    exact ⟨x, hx, agrees_trans (hf y hy u (hus.mem u hu) hyu) hux⟩
  pairwise := hxs.pairwise

/-- There are two representatives if and only if two trees differ. -/
theorem Represents.two_le_length_iff (h : Represents xs ys) (hw : ∀ y ∈ ys, y.WellFormed) :
    2 ≤ xs.length ↔ ∃ y ∈ ys, ∃ z ∈ ys, ¬y.agrees z := by
  constructor
  · intro hlen
    match xs, h with
    | [], _ => simp at hlen
    | [x], _ => simp at hlen
    | x :: x' :: rest, h =>
      refine ⟨x', h.mem x' (by simp), x, h.mem x (by simp), ?_⟩
      exact (List.pairwise_cons.mp h.pairwise).1 x' List.mem_cons_self
  · intro ⟨y, hy, z, hz, hne⟩
    by_contra hlt
    obtain ⟨a, ha, hya⟩ := h.exists_agrees y hy
    obtain ⟨b, hb, hzb⟩ := h.exists_agrees z hz
    have hab : a = b := by
      have hone : xs.length = 1 := by
        have hpos := List.length_pos_of_mem ha
        omega
      obtain ⟨c, rfl⟩ := List.length_eq_one_iff.mp hone
      rw [List.mem_singleton.mp ha, List.mem_singleton.mp hb]
    exact hne (agrees_trans hya (agrees_symm (hw z hz) (hab ▸ hzb)))

end Represents

/-- Trees that agree have as many children, and those of the second are those of the first. -/
theorem items_of_agrees {a b : Tree} (ha : a.WellFormed) (h : a.agrees b) :
    a.items.length = b.items.length ∧ ∀ y ∈ b.items, ∃ x ∈ a.items, x.agrees y := by
  cases a with
  | constant =>
    obtain ⟨n, r, rfl⟩ := agrees_constant_left.mp h
    exact ⟨rfl, fun y hy => absurd hy List.not_mem_nil⟩
  | application m p xs s =>
    obtain ⟨n, ys, r, rfl, hf⟩ := agrees_application_left.mp h
    exact ⟨hf.length_eq, fun y hy => forall₂_exists_left hf hy⟩
  | ambiguity m xs s =>
    obtain ⟨n, ys, r, rfl, hlen, -⟩ := agrees_ambiguity_left.mp h
    have hsymm : ∀ x ∈ xs, ∀ y : Tree, x.agrees y → y.agrees x :=
      fun x hx y hxy => agrees_symm (ha.items hx) hxy
    obtain ⟨zs, hperm, hf⟩ := exists_perm_of_agrees hsymm ha.self h
    exact ⟨hlen, fun y hy => forall₂_exists_left hf (hperm.mem_iff.mpr hy)⟩
  | grouping m xs s =>
    obtain ⟨n, ys, r, rfl, hf⟩ := agrees_grouping_left.mp h
    exact ⟨hf.length_eq, fun y hy => forall₂_exists_left hf hy⟩

/-- Ambiguities that agree still do when a function that keeps agreement is applied to their
alternatives. -/
theorem agrees_ambiguity_map {m n : Unit} {xs ys : List Tree} {s r s' r' : Span} {f : Tree → Tree}
    (hx : (ambiguity m xs s : Tree).WellFormed) (h : (ambiguity m xs s).agrees (ambiguity n ys r))
    (hfx : ∀ x ∈ xs, (f x).WellFormed) (hfy : ∀ y ∈ ys, (f y).WellFormed)
    (hf : ∀ x ∈ xs, ∀ y ∈ ys, x.agrees y → (f x).agrees (f y)) :
    (ambiguity () (xs.map f).eraseDups s').agrees (ambiguity () (ys.map f).eraseDups r') := by
  refine agrees_ambiguity_eraseDups (List.forall_mem_map.mpr hfx) (List.forall_mem_map.mpr hfy)
    (List.forall_mem_map.mpr fun x hxs => ?_) (List.forall_mem_map.mpr fun y hys => ?_)
  · obtain ⟨y, hys, hxy⟩ := (agrees_ambiguity_iff.mp h).2 x hxs
    exact ⟨_, List.mem_map_of_mem hys, hf x hxs y hys hxy⟩
  · obtain ⟨x, hxs, hxy⟩ := (items_of_agrees hx h).2 y hys
    exact ⟨_, List.mem_map_of_mem hxs, agrees_symm (hfx x hxs) (hf x hxs y hys hxy)⟩

/-- What is genuine in a tree is genuine in those that agree with it. -/
theorem genuine_of_agrees {a b : Tree} (ha : a.WellFormed) (h : a.agrees b)
    (hg : Everywhere Genuine a) : Everywhere Genuine b := by
  induction a using items_induction generalizing b with
  | node a ih =>
    obtain ⟨hlen, hitems⟩ := items_of_agrees ha h
    refine everywhere_iff.mpr ⟨fun hb => ?_, fun y hy => ?_⟩
    · rw [← hlen]
      exact hg.self ((alike_of_agrees h).isAmbiguity_eq ▸ hb)
    · obtain ⟨x, hx, hxy⟩ := hitems y hy
      exact ih x hx (ha.items hx) hxy (hg.of_mem_items hx)

theorem Represents.genuine_iff {xs ys : List Tree} (h : Represents xs ys)
    (hw : ∀ y ∈ ys, y.WellFormed) :
    (∀ x ∈ xs, Everywhere Genuine x) ↔ ∀ y ∈ ys, Everywhere Genuine y := by
  constructor
  · intro hg y hy
    obtain ⟨x, hx, hyx⟩ := h.exists_agrees y hy
    exact genuine_of_agrees (hw x (h.mem x hx)) (agrees_symm (hw y hy) hyx) (hg x hx)
  · intro hg x hx
    exact hg x (h.mem x hx)

end Forest

namespace Completion
open Forest (Everywhere Genuine HasAlternative Represents)
variable {names : SymbolTable} {g : Grammar} {slot : SortName} {p : Production}
  {c : Option SortName} {t : Tree} {ts : List Tree} {m : Unit} {s : Span}

/-- The list sort that is expected in a slot of the production, if there is one. -/
def expected (names : SymbolTable) (g : Grammar) (p : Production) (slot : SortName) :
    Option SortName := if p.expects names && g.isListSort slot then some slot else none

/-- What becomes of a tree where a list sort is expected, or anywhere else. -/
def completedIn (names : SymbolTable) (g : Grammar) (t : Tree) : Option SortName → Tree
  | some slot => (placed names g slot (completed names g t).tree).tree
  | none => (completed names g t).tree

/-- The tree `a` occurs in another tree and stands where the list sort `c` is expected, given what
is expected where that tree stands. -/
inductive StandsIn (names : SymbolTable) (g : Grammar) (a : Tree) (c : Option SortName) :
    Tree → Option SortName → Prop
  | here : StandsIn names g a c a c
  | child {m : Unit} {p : Production} {ts : List Tree} {s : Span} {e : Option SortName}
      {slot : SortName} {x : Tree} (hx : (slot, x) ∈ p.slots.zip ts)
      (h : StandsIn names g a c x (expected names g p slot)) :
      StandsIn names g a c (.application m p ts s) e
  | alternative {m : Unit} {ts : List Tree} {s : Span} {e : Option SortName} {x : Tree}
      (hx : x ∈ ts) (h : StandsIn names g a c x e) : StandsIn names g a c (.ambiguity m ts s) e
  | member {m : Unit} {ts : List Tree} {s : Span} {e : Option SortName} {x : Tree}
      (hx : x ∈ ts) (h : StandsIn names g a c x none) : StandsIn names g a c (.grouping m ts s) e

/-- Two alternatives differ after completion as they would stand where `c` is expected. -/
def KeepsApart (names : SymbolTable) (g : Grammar) (c : Option SortName) (a : Tree) : Prop :=
  ∃ x ∈ a.items, ∃ y ∈ a.items, ¬(completedIn names g x c).agrees (completedIn names g y c)

/-- Every ambiguity of the tree keeps two alternatives apart where it stands. -/
def AllKeepApart (names : SymbolTable) (g : Grammar) (t : Tree) (c : Option SortName) : Prop :=
  ∀ a c', StandsIn names g a c' t c → a.isAmbiguity → KeepsApart names g c' a

theorem completedIn_of_le {later : SymbolTable} (hg : g.KnownTo names) (h : names ≤ later)
    (ht : t.KnownTo names) : completedIn later g t c = completedIn names g t c := by
  cases c with
  | none => rw [completedIn, completedIn, completed_of_le hg h ht]
  | some slot =>
    rw [completedIn, completedIn, completed_of_le hg h ht,
      placed_of_le hg h (knownTo_completed hg ht)]

theorem slotted_tree (slot : SortName) (t : Tree) : (slotted names g p slot t).tree =
    completedIn names g t (expected names g p slot) := by
  rw [slotted, filled, expected]
  split <;> rfl

section AllKeepApart

theorem allKeepApart_constant {v : Symbol} : AllKeepApart names g (.constant m v p s) c := by
  intro a c' h ha
  cases h
  simp [Forest.isAmbiguity] at ha

theorem allKeepApart_application_iff : AllKeepApart names g (.application m p ts s) c ↔
    ∀ e ∈ p.slots.zip ts, AllKeepApart names g e.2 (expected names g p e.1) := by
  constructor
  · intro h e he a c' ha
    exact h a c' (.child he ha)
  · intro h a c' ha hamb
    cases ha with
    | here => simp [Forest.isAmbiguity] at hamb
    | child hx ha => exact h _ hx a c' ha hamb

theorem allKeepApart_ambiguity_iff : AllKeepApart names g (.ambiguity m ts s) c ↔
    KeepsApart names g c (.ambiguity m ts s) ∧ ∀ x ∈ ts, AllKeepApart names g x c := by
  constructor
  · intro h
    exact ⟨h _ c .here rfl, fun x hx a c' ha => h a c' (.alternative hx ha)⟩
  · intro ⟨hself, hts⟩ a c' ha hamb
    cases ha with
    | here => exact hself
    | alternative hx ha => exact hts _ hx a c' ha hamb

theorem allKeepApart_grouping_iff : AllKeepApart names g (.grouping m ts s) c ↔
    ∀ x ∈ ts, AllKeepApart names g x none := by
  constructor
  · intro h x hx a c' ha
    exact h a c' (.member hx ha)
  · intro h a c' ha hamb
    cases ha with
    | here => simp [Forest.isAmbiguity] at hamb
    | member hx ha => exact h _ hx a c' ha hamb

end AllKeepApart

theorem keeps_wellFormed : Keeps names g Forest.NodeWellFormed where
  singleton {slot d t} _ _ ht :=
    everywhere_singletonTree d.cons_arity.symm d.terminator_arity.symm ht
  withItems {t us} hna _ ht := by
    cases t with
    | application m p ts s => exact absurd rfl (hna m p ts s)
    | ambiguity => exact pairwise_eraseDups us
    | constant | grouping => trivial
  application {m p ts s} ht := by
    have hlen : ts.length = p.slots.length := ht
    rw [completed_application]
    simp [Forest.NodeWellFormed, Production.arity, hlen]

theorem wellFormed_placed (ht : t.WellFormed) : (placed names g slot t).tree.WellFormed :=
  keeps_wellFormed.placed ht

theorem wellFormed_completed (ht : t.WellFormed) : (completed names g t).tree.WellFormed :=
  keeps_wellFormed.completed ht

theorem wellFormed_completedIn (ht : t.WellFormed) : (completedIn names g t c).WellFormed := by
  cases c with
  | none => exact wellFormed_completed ht
  | some slot => exact wellFormed_placed (wellFormed_completed ht)

/-- Trees that agree become trees that agree, also through ambiguities. -/
theorem agrees_placed {a b : Tree} (ha : a.WellFormed) (hb : b.WellFormed) (h : a.agrees b) :
    (placed names g slot a).tree.agrees (placed names g slot b).tree := by
  induction a using Forest.induction generalizing b with
  | ambiguity m xs s ih =>
    obtain ⟨n, ys, r, rfl, -⟩ := Forest.agrees_ambiguity_left.mp h
    rw [placed_ambiguity, placed_ambiguity]
    exact Forest.agrees_ambiguity_map ha h (fun x hx => wellFormed_placed (ha.items hx))
      (fun y hy => wellFormed_placed (hb.items hy))
      fun x hx y hy => ih x hx (ha.items hx) (hb.items hy)
  | constant | application | grouping =>
    have hb : ¬b.isAmbiguity := by
      rw [← (Forest.alike_of_agrees h).isAmbiguity_eq]
      simp [Forest.isAmbiguity]
    rw [placed_of_not_isAmbiguity hb, placed_of_not_isAmbiguity (by simp [Forest.isAmbiguity])]
    exact agrees_placedTree h

/-- What becomes of an ambiguity has what becomes of the alternatives, up to equality. -/
theorem exists_completedIn_ambiguity (hw : ∀ x ∈ ts, x.WellFormed) :
    ∃ xs, completedIn names g (.ambiguity m ts s) c = .ambiguity () xs s ∧
      Represents xs (ts.map fun x => completedIn names g x c) := by
  cases c with
  | none =>
    rw [completedIn, completed_ambiguity]
    exact ⟨_, rfl, Forest.represents_eraseDups _⟩
  | some slot =>
    rw [completedIn, completed_ambiguity, placed_ambiguity]
    refine ⟨_, rfl, ?_⟩
    -- Equal alternatives are merged once when they are complete and again when they are placed.
    have hwx : ∀ y ∈ ts.map fun x => (completed names g x).tree, y.WellFormed :=
      List.forall_mem_map.mpr fun x hx => wellFormed_completed (hw x hx)
    have hall := (Forest.represents_eraseDups _).map
      (f := fun u => (placed names g slot u).tree) (Forest.represents_eraseDups _)
      fun y hy z hz => agrees_placed (hwx y hy) (hwx z hz)
    rw [List.map_map] at hall
    exact hall

theorem genuine_iff_of_not_isAmbiguity (ha : ¬t.isAmbiguity) :
    Everywhere Genuine t ↔ ∀ u ∈ t.items, Everywhere Genuine u := by
  rw [Forest.everywhere_iff]
  constructor
  · intro h
    exact h.2
  · intro h
    exact ⟨fun h' => absurd h' ha, h⟩

/-- Where a tree that is no ambiguity stands does not matter. -/
theorem genuine_completedIn_iff_of_not_isAmbiguity (ha : ¬t.isAmbiguity) :
    Everywhere Genuine (completedIn names g t c) ↔
      Everywhere Genuine (completed names g t).tree := by
  cases c with
  | none => exact Iff.rfl
  | some slot =>
    have hna : ¬(completed names g t).tree.isAmbiguity := by rwa [isAmbiguity_completed]
    rw [completedIn, placed_of_not_isAmbiguity hna]
    rcases placedTree_cases names g slot (completed names g t).tree with h | ⟨d, -, h⟩ | ⟨found, h⟩
    · rw [h]
    · rw [h]
      constructor
      · intro hg
        exact hg.of_mem_items List.mem_cons_self
      · intro hg
        exact everywhere_singletonTree (by simp [Genuine, singletonTree, Forest.isAmbiguity])
          (by simp [Genuine, Forest.isAmbiguity]) hg
    · rw [h]

/-- The ambiguities of a completed tree are genuine if and only if those of the tree keep two
alternatives apart. -/
theorem genuine_completedIn_iff (hw : t.WellFormed) :
    Everywhere Genuine (completedIn names g t c) ↔ AllKeepApart names g t c := by
  -- Alternatives stand where their ambiguity stands, so the place is part of what is proved.
  induction t using Forest.induction generalizing c with
  | constant m v p s =>
    rw [genuine_completedIn_iff_of_not_isAmbiguity (by simp [Forest.isAmbiguity]),
      completed_constant, genuine_iff_of_not_isAmbiguity (by simp [Forest.isAmbiguity])]
    exact iff_of_true (by simp [Forest.items]) allKeepApart_constant
  | application m p ts s ih =>
    rw [genuine_completedIn_iff_of_not_isAmbiguity (by simp [Forest.isAmbiguity]),
      completed_application, genuine_iff_of_not_isAmbiguity (by simp [Forest.isAmbiguity]),
      allKeepApart_application_iff, Forest.items, List.forall_mem_map]
    refine forall₂_congr fun e he => ?_
    have hm := (List.of_mem_zip he).2
    rw [slotted_tree]
    exact ih e.2 hm (hw.items hm)
  | ambiguity m ts s ih =>
    have hts : ∀ x ∈ ts, x.WellFormed := fun x hx => hw.items hx
    obtain ⟨xs, hxs, hrep⟩ : ∃ xs, completedIn names g (.ambiguity m ts s) c = .ambiguity () xs s ∧
        Represents xs (ts.map fun x => completedIn names g x c) := exists_completedIn_ambiguity hts
    have hwx : ∀ y ∈ ts.map fun x => completedIn names g x c, y.WellFormed :=
      List.forall_mem_map.mpr fun x hx => wellFormed_completedIn (hts x hx)
    rw [hxs, Forest.everywhere_iff, allKeepApart_ambiguity_iff]
    refine and_congr ?_ ?_
    · have htwo := hrep.two_le_length_iff hwx
      simp only [List.mem_map, exists_exists_and_eq_and] at htwo
      rw [KeepsApart, Forest.items, ← htwo]
      exact ⟨fun h => h rfl, fun h _ => h⟩
    · rw [Forest.items, hrep.genuine_iff hwx, List.forall_mem_map]
      exact forall₂_congr fun x hx => ih x hx (hts x hx)
  | grouping m ts s ih =>
    rw [genuine_completedIn_iff_of_not_isAmbiguity (by simp [Forest.isAmbiguity]),
      completed_grouping, genuine_iff_of_not_isAmbiguity (by simp [Forest.isAmbiguity]),
      allKeepApart_grouping_iff, Forest.items, List.forall_mem_map]
    exact forall₂_congr fun x hx => ih (c := none) x hx (hw.items hx)

/-- Completion leaves no ambiguity without alternatives if there was none. -/
theorem keeps_hasAlternative : Keeps names g HasAlternative where
  singleton _ _ ht :=
    everywhere_singletonTree (by simp [HasAlternative, singletonTree, Forest.isAmbiguity])
      (by simp [HasAlternative, Forest.isAmbiguity]) ht
  withItems {t us} _ hmarkers ht := by
    cases t with
    | ambiguity m ts s =>
      have hne : ts ≠ [] := ht rfl
      have hus : us ≠ [] := by
        rw [← List.map_eq_nil_iff.ne, hmarkers]
        exact List.map_eq_nil_iff.ne.mpr hne
      exact fun _ hnil => hus (eraseDups_eq_nil_iff.mp hnil)
    | constant | application | grouping =>
      intro ha
      rw [Forest.isAmbiguity_withItems] at ha
      cases ha
  application _ := by
    rw [completed_application]
    simp [HasAlternative, Forest.isAmbiguity]

end Completion

namespace Ledger
variable {l : Ledger} {t : Term} {g : Grammar}

/-- If a term is accepted, every ambiguity of the result has an alternative and no two that are
equal. All of them have two alternatives if and only if every ambiguity that cleaning leaves keeps
two alternatives apart where it stands. -/
theorem disambiguation_genuine_iff (hg : g.KnownTo l.symbols) (ht : t ∈ l) (config : PassConfig)
    (memo : Option Memo) : ∃ v, l.disambiguation g config t = .ok v ∧ ∀ d, v = .ok d →
      (∀ a : Term, a.Occurs d.term → a.isAmbiguity →
        a.items ≠ [] ∧ a.items.Pairwise fun x y => ¬x == y) ∧
      ((∀ a : Term, a.Occurs d.term → a.isAmbiguity → 2 ≤ a.items.length) ↔
        ∃ (o : Outcome) (u : Term), l.cleaning memo t = .ok o ∧ o.result = .ok u ∧
          Completion.AllKeepApart l.symbols g u.tree none) := by
  have hw : t.tree.WellFormed := Forest.wellFormed_tree.mpr (wellFormed_of_mem ht)
  obtain ⟨o, k, hrun, -, ho⟩ := exists_disambiguation_eq hg ht config
  refine ⟨o.verdict, hrun, fun d hd => ?_⟩
  have hresult := (Outcome.verdict_eq_ok_iff.mp hd).1
  have hmem : d.term ∈ k := ho.mem d.term hresult
  have htree : (t.tree.disambiguated l.symbols g).result = .ok d.term.tree := by
    rw [← ho.tree_eq, Outcome.result_map, hresult]
    rfl
  obtain ⟨u, hu, hud⟩ := Forest.result_disambiguated_eq_ok_iff.mp htree
  have hclean : u.Clean := Forest.CleansTo.clean hw hu
  have hgenuine : (Completion.completedIn l.symbols g u none).Everywhere Forest.Genuine ↔
      Completion.AllKeepApart l.symbols g u none :=
    Completion.genuine_completedIn_iff hclean.wellFormed
  rw [Completion.completedIn, hud, Forest.everywhere_tree fun _ => Forest.genuine_tree.symm]
    at hgenuine
  constructor
  · intro a ha hamb
    have hall : d.term.tree.Everywhere Forest.HasAlternative :=
      hud ▸ Completion.keeps_hasAlternative.completed hclean.hasAlternative
    rw [Forest.everywhere_tree fun _ => Forest.hasAlternative_tree.symm] at hall
    exact ⟨hall a ha hamb, pairwise_items_of_isAmbiguity (mem_of_occurs hmem ha) hamb⟩
  · obtain ⟨c, v, hc, hv, hvu⟩ := exists_cleaning_of_cleansTo ht memo hu
    subst hvu
    refine hgenuine.trans ⟨fun h => ⟨c, v, hc, hv, h⟩, fun ⟨c', v', hc', hv', h⟩ => ?_⟩
    rw [hc] at hc'
    obtain rfl := Except.ok.inj hc'
    rw [hv] at hv'
    obtain rfl := Except.ok.inj hv'
    exact h

/-- An element, and the list of it. -/
def likeLists : List Tree :=
  [element, .application () listCons [element, .application () listEnd [] .unknown] .unknown]

/-- The slot of a list sort holds an ambiguity between an element and the list of it. -/
def elementOrList : Tree := .application () ofList [.ambiguity () likeLists .unknown] .unknown

theorem not_allKeepApart_elementOrList {names : SymbolTable} (h : listNames.symbols ≤ names) :
    ¬Completion.AllKeepApart names listGrammar elementOrList none := by
  have hg : listGrammar.KnownTo listNames.symbols := ⟨by decide, by decide, by decide⟩
  have hknown : ∀ x ∈ likeLists, x.KnownTo listNames.symbols := by decide
  have hsame : ∀ x ∈ likeLists, ∀ y ∈ likeLists,
      (Completion.completedIn listNames.symbols listGrammar x (some listSort)).agrees
        (Completion.completedIn listNames.symbols listGrammar y (some listSort)) := by
    decide
  have hslot : Completion.expected names listGrammar ofList listSort = some listSort := by
    rw [Completion.expected, Production.expects_of_le h (by decide)]
    decide
  intro hall
  obtain ⟨x, hx, y, hy, hne⟩ := hall (.ambiguity () likeLists .unknown) (some listSort)
    (.child (List.mem_singleton.mpr rfl) (hslot ▸ .here)) rfl
  rw [Completion.completedIn_of_le hg h (hknown x hx),
    Completion.completedIn_of_le hg h (hknown y hy)] at hne
  exact hne (hsame x hx y hy)

/-- Completion makes the two alternatives equal, so one is left. -/
theorem disambiguation_genuine_iff_elementOrList : ∃ (l : Ledger) (t : Term), t ∈ l ∧
    t.tree = elementOrList ∧ ∃ d, l.disambiguation listGrammar {} t = .ok (.ok d) ∧
      ∃ a : Term, a.Occurs d.term ∧ a.isAmbiguity ∧ a.items.length = 1 := by
  obtain ⟨l, t, hl, ht, htree⟩ :=
    exists_stores (l := listNames) (r := elementOrList) (by decide) (by decide)
  have hnames : listGrammar.KnownTo listNames.symbols := ⟨by decide, by decide, by decide⟩
  have hg : listGrammar.KnownTo l.symbols := hnames.of_le (symbols_le hl)
  have hclean : elementOrList.CleansTo elementOrList := rfl
  obtain ⟨d, hd⟩ := exists_accepted hg ht {} (htree ▸ hclean)
  obtain ⟨v, hv, hall⟩ := disambiguation_genuine_iff hg ht {} none
  have hvd : v = .ok d := Except.ok.inj (hv.symm.trans hd)
  obtain ⟨hsome, htwo⟩ := hall d hvd
  refine ⟨l, t, ht, htree, d, hd, ?_⟩
  by_contra hnone
  obtain ⟨o, u, ho, hu, hapart⟩ := htwo.mp fun a ha hamb => by
    have hne : a.items.length ≠ 1 := fun hone => hnone ⟨a, ha, hamb, hone⟩
    have hpos := List.length_pos_iff.mpr (hsome a ha hamb).1
    omega
  have hu' : elementOrList.CleansTo u.tree := htree ▸ cleansTo_of_cleaning ht ho hu
  exact not_allKeepApart_elementOrList (symbols_le hl) (hclean.unique hu' ▸ hapart)

end Ledger
end ParseForest
