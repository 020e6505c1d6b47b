import ParseForest.Forest

/-!
# Nodes that occur in a forest

A forest occurs in itself, and whatever occurs in a child occurs in its parent.
Values are computed from the leaves up by a fold, whose single equation is all
that is ever used of it.
-/
namespace ParseForest
namespace Forest
variable {ι κ ω : Type}

/-- Induction from children to parents that does not tell nodes apart. -/
theorem items_induction {motive : Forest ι → Prop}
    (node : ∀ t, (∀ u ∈ t.items, motive u) → motive t) (t : Forest ι) : motive t := by
  induction t using Forest.induction with
  | constant => exact node _ fun u hu => absurd hu List.not_mem_nil
  | application m p ts s ih | ambiguity m ts s ih | grouping m ts s ih => exact node _ ih

/-- `Occurs u t`: the forest `u` is `t` or occurs in a child of `t`. -/
inductive Occurs (u : Forest ι) : Forest ι → Prop
  | refl : Occurs u u
  | child {t v : Forest ι} (hv : v ∈ t.items) (hu : Occurs u v) : Occurs u t

theorem occurs_iff {u t : Forest ι} : Occurs u t ↔ u = t ∨ ∃ v ∈ t.items, Occurs u v := by
  constructor
  · intro h
    cases h with
    | refl => exact .inl rfl
    | child hv hu => exact .inr ⟨_, hv, hu⟩
  · rintro (rfl | ⟨v, hv, hu⟩)
    · exact .refl
    · exact .child hv hu

theorem Occurs.trans {u v t : Forest ι} (huv : Occurs u v) (hvt : Occurs v t) : Occurs u t := by
  induction hvt with
  | refl => exact huv
  | child hw _ ih => exact .child hw ih

/-- Whatever occurs in the forest has the property. -/
def Everywhere (P : Forest ι → Prop) (t : Forest ι) : Prop := ∀ u, Occurs u t → P u

theorem everywhere_iff {P : Forest ι → Prop} {t : Forest ι} :
    Everywhere P t ↔ P t ∧ ∀ u ∈ t.items, Everywhere P u := by
  constructor
  · intro h
    exact ⟨h t .refl, fun u hu v hv => h v (.child hu hv)⟩
  · rintro ⟨ht, hi⟩ u hu
    rcases occurs_iff.mp hu with rfl | ⟨v, hv, huv⟩
    · exact ht
    · exact hi v hv u huv

theorem Everywhere.self {P : Forest ι → Prop} {t : Forest ι} (h : Everywhere P t) : P t :=
  h t .refl

theorem Everywhere.of_mem_items {P : Forest ι → Prop} {t u : Forest ι} (h : Everywhere P t)
    (hu : u ∈ t.items) : Everywhere P u := (everywhere_iff.mp h).2 u hu

theorem Everywhere.imp {P Q : Forest ι → Prop} {t : Forest ι} (h : Everywhere P t)
    (hPQ : ∀ u, P u → Q u) : Everywhere Q t := fun u hu => hPQ u (h u hu)

mutual

/-- The value of a forest, where `node` computes the value of a node from those of its children. -/
def fold (node : Forest ι → List ω → ω) : Forest ι → ω
  | constant mark value production span => node (constant mark value production span) []
  | application mark production items span =>
      node (application mark production items span) (foldAll node items)
  | ambiguity mark items span => node (ambiguity mark items span) (foldAll node items)
  | grouping mark items span => node (grouping mark items span) (foldAll node items)

def foldAll (node : Forest ι → List ω → ω) : List (Forest ι) → List ω
  | [] => []
  | t :: ts => t.fold node :: foldAll node ts

end

@[simp] theorem foldAll_eq (node : Forest ι → List ω → ω) (ts : List (Forest ι)) :
    foldAll node ts = ts.map (fold node) := by
  induction ts with
  | nil => rfl
  | cons t ts ih => simp [foldAll, ih]

theorem fold_eq (node : Forest ι → List ω → ω) (t : Forest ι) :
    t.fold node = node t (t.items.map (fold node)) := by
  cases t <;> simp [fold, items]

/-- What can be decided of each node can be decided of all. -/
instance {P : Forest ι → Prop} [DecidablePred P] : DecidablePred (Everywhere P) := fun t =>
  decidable_of_iff (t.fold (fun u answers => decide (P u) && answers.all id)) <| by
    induction t using Forest.induction with
    | constant => rw [fold_eq, everywhere_iff]; simp [items]
    | application m p ts s ih | ambiguity m ts s ih | grouping m ts s ih =>
      rw [fold_eq, everywhere_iff]
      simp +contextual [items, ih]

/-- Length of the longest way down from the node. -/
def height (t : Forest ι) : Nat := t.fold fun _ hs => hs.foldr (fun h m => max (h + 1) m) 0

theorem height_le_iff {t : Forest ι} {n : Nat} : t.height ≤ n ↔ ∀ u ∈ t.items, u.height < n := by
  have le_foldr : ∀ ts : List (Forest ι),
      (ts.map height).foldr (fun h m => max (h + 1) m) 0 ≤ n ↔ ∀ u ∈ ts, u.height < n := by
    intro ts
    induction ts with
    | nil => simp
    | cons u ts ih =>
      rw [List.map_cons, List.foldr_cons, Nat.max_le, ih, List.forall_mem_cons]
      exact Iff.rfl
  rw [height, fold_eq]
  exact le_foldr t.items

theorem height_lt_of_mem_items {t u : Forest ι} (h : u ∈ t.items) : u.height < t.height :=
  height_le_iff.mp (Nat.le_refl _) u h

/-- Whether the node is an ambiguity. -/
def isAmbiguity : Forest ι → Bool
  | ambiguity .. => true
  | _ => false

theorem isAmbiguity_iff {t : Forest ι} :
    t.isAmbiguity ↔ ∃ mark items span, t = ambiguity mark items span := by
  cases t <;> simp [isAmbiguity]

@[simp] theorem tree_constant (m : ι) (v : Symbol) (p : Production) (s : Span) :
    (constant m v p s).tree = constant () v p s := rfl

@[simp] theorem tree_application (m : ι) (p : Production) (ts : List (Forest ι)) (s : Span) :
    (application m p ts s).tree = application () p (ts.map tree) s := by
  simp only [tree, mapMarks, mapAllMarks_eq]
  rfl

@[simp] theorem tree_ambiguity (m : ι) (ts : List (Forest ι)) (s : Span) :
    (ambiguity m ts s).tree = ambiguity () (ts.map tree) s := by
  simp only [tree, mapMarks, mapAllMarks_eq]
  rfl

@[simp] theorem tree_grouping (m : ι) (ts : List (Forest ι)) (s : Span) :
    (grouping m ts s).tree = grouping () (ts.map tree) s := by
  simp only [tree, mapMarks, mapAllMarks_eq]
  rfl

@[simp] theorem items_tree (t : Forest ι) : t.tree.items = t.items.map tree := by
  cases t <;> simp [items]

@[simp] theorem span_tree (t : Forest ι) : t.tree.span = t.span := by
  cases t <;> simp [span]

@[simp] theorem production?_tree (t : Forest ι) : t.tree.production? = t.production? := by
  cases t <;> simp [production?]

@[simp] theorem sort?_tree (t : Forest ι) : t.tree.sort? = t.sort? := by
  simp [sort?]

@[simp] theorem isEmptyMarker_tree (t : Forest ι) : t.tree.isEmptyMarker = t.isEmptyMarker := by
  cases t with
  | grouping m ts s => cases ts <;> simp [isEmptyMarker]
  | _ => simp [isEmptyMarker]

@[simp] theorem isAmbiguity_tree (t : Forest ι) : t.tree.isAmbiguity = t.isAmbiguity := by
  cases t <;> simp [isAmbiguity]

@[simp] theorem tree_tree (t : Forest ι) : t.tree.tree = t.tree := by
  induction t with
  | constant => rfl
  | application m p ts s ih => simpa using ih
  | ambiguity m ts s ih => simpa using ih
  | grouping m ts s ih => simpa using ih

@[simp] theorem height_tree (t : Forest ι) : t.tree.height = t.height := by
  induction t using Forest.induction with
  | constant => rfl
  | application m p ts s ih | ambiguity m ts s ih | grouping m ts s ih =>
    have hmap : (ts.map tree).map height = ts.map height := by simpa using ih
    rw [height, height, fold_eq, fold_eq, items_tree]
    exact congrArg (List.foldr (fun h m => max (h + 1) m) 0) hmap

theorem size_tree (t : Forest ι) : t.tree.size = t.size := by
  have all {ts : List (Forest ι)} (ih : ∀ u ∈ ts, u.tree.size = u.size) :
      sizes (ts.map tree) = sizes ts := by
    induction ts with
    | nil => rfl
    | cons u ts ihs =>
      rw [List.map_cons, sizes, sizes, ih u List.mem_cons_self,
        ihs fun v hv => ih v (List.mem_cons_of_mem u hv)]
  induction t using Forest.items_induction with
  | node t ih => rw [size_eq, size_eq t, items_tree, all ih]

/-- What occurs in the tree of a forest is the tree of what occurs in the forest. -/
theorem occurs_tree {t : Forest ι} {u : Tree} : Occurs u t.tree ↔ ∃ v, Occurs v t ∧ v.tree = u := by
  constructor
  · intro h
    generalize ht : t.tree = r at h
    induction h generalizing t with
    | refl => exact ⟨t, .refl, ht⟩
    | child hv _ ih =>
      subst ht
      obtain ⟨w, hw, rfl⟩ := List.mem_map.mp (items_tree t ▸ hv)
      obtain ⟨x, hx, rfl⟩ := ih rfl
      exact ⟨x, .child hw hx, rfl⟩
  · rintro ⟨v, hv, rfl⟩
    induction hv with
    | refl => exact .refl
    | child hw _ ih => exact .child (items_tree _ ▸ List.mem_map_of_mem hw) ih

end Forest
end ParseForest
