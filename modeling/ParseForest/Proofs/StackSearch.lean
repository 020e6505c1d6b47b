import Mathlib.Data.List.Basic
import ParseForest.Proofs.Closure

/-!
# Searching with a stack

The nodes of a graph can be put in order without recursion. A first search keeps
on a stack what it has still to look at. A node that it discovers stays on the
stack, below its successors, and is finished when it is on top again. A node can
be on the stack more than once, and then it counts where it is first on top. A
second search takes the nodes in the order found, the last finished first, and
follows edges backwards; if one start leads it to a second node, then that node
is in the way. The two searches are shown to do just what the recursive search
and the look at the predecessors do.
-/
namespace ParseForest
namespace Digraph
variable {g : Digraph} {seen stack rest vs : List Nat} {v w : Nat}

/-- Push those nodes that are not seen, one after the other. -/
def pushUnseen (seen vs stack : List Nat) : List Nat :=
  vs.foldl (fun stack v => if v ∈ seen then stack else v :: stack) stack

theorem pushUnseen_eq (seen vs stack : List Nat) :
    pushUnseen seen vs stack = (vs.reverse.filter fun v => v ∉ seen) ++ stack := by
  induction vs generalizing stack with
  | nil => rfl
  | cons v vs ih =>
    rw [pushUnseen, List.foldl_cons, ← pushUnseen, ih, List.reverse_cons, List.filter_append,
      List.append_assoc]
    by_cases hv : v ∈ seen <;> simp [hv]

/-- How many of the nodes are not seen. -/
def unseen (vs seen : List Nat) : Nat := (vs.filter fun v => v ∉ seen).length

theorem unseen_le {seen' : List Nat} (h : ∀ x ∈ seen, x ∈ seen') :
    unseen vs seen' ≤ unseen vs seen := by
  refine (List.monotone_filter_right vs fun x hx => ?_).length_le
  simp only [decide_eq_true_eq] at hx ⊢
  exact fun hseen => hx (h x hseen)

theorem unseen_cons_lt (hv : v ∈ vs) (hs : v ∉ seen) : unseen vs (v :: seen) < unseen vs seen := by
  have hfilter : (vs.filter fun u => u ∉ v :: seen) =
      (vs.filter fun u => u ∉ seen).filter fun u => u ≠ v := by
    rw [List.filter_filter]
    exact List.filter_congr fun u _ => by simp
  rw [unseen, hfilter]
  exact List.length_filter_lt_length_iff_exists.mpr ⟨v, List.mem_filter.mpr ⟨hv, by simpa⟩, by simp⟩

theorem successors_eq_nil (hv : ¬v < g.size) : g.successors v = [] := by
  refine List.eq_nil_iff_forall_not_mem.mpr fun w hw => hv ?_
  exact (g.edges_lt _ (mem_successors.mp hw)).1

/-- Search until the stack is empty. -/
def drain (g : Digraph) : List Nat → Search → Search
  | [], s => s
  | v :: rest, s =>
      if v ∈ s.seen then
        g.drain rest ⟨s.seen, if v ∈ s.finished then s.finished else v :: s.finished⟩
      else g.drain (pushUnseen (v :: s.seen) (g.successors v) (v :: rest)) ⟨v :: s.seen, s.finished⟩
termination_by stack s => (unseen (List.range g.size) s.seen, unseen stack s.seen, stack.length)
decreasing_by
  · rename_i hv
    have hstack : unseen (v :: rest) s.seen = unseen rest s.seen := by simp [unseen, hv]
    rw [hstack]
    exact .right _ (.right _ (Nat.lt_succ_self _))
  · rename_i hv
    by_cases hlt : v < g.size
    · exact .left _ _ (unseen_cons_lt (List.mem_range.mpr hlt) hv)
    · -- What is no node has no successors.
      rw [successors_eq_nil hlt, pushUnseen_eq]
      have hle : unseen (List.range g.size) (v :: s.seen) ≤ unseen (List.range g.size) s.seen :=
        unseen_le fun x hx => List.mem_cons_of_mem v hx
      rcases Nat.lt_or_eq_of_le hle with hlt | heq
      · exact .left _ _ hlt
      · rw [heq]
        exact .right _ (.left _ _ (unseen_cons_lt List.mem_cons_self hv))

/-- The nodes by a search with a stack from each, those that were finished last in front. -/
def drainOrder (g : Digraph) : List Nat :=
  ((List.range g.size).foldl (fun s v => if v ∈ s.seen then s else g.drain [v] s) ⟨[], []⟩).finished

/-- The next node that a search against the edges comes to, and what is then on the stack. -/
def nextBack? (g : Digraph) (seen : List Nat) : List Nat → Option (Nat × List Nat)
  | [] => none
  | v :: rest =>
      if v ∈ seen then g.nextBack? seen rest
      else some (v, pushUnseen (v :: seen) (g.predecessors v) rest)

/-- The first node that is the second one which a search from one of the nodes comes to. -/
def secondReached (g : Digraph) (seen : List Nat) : List Nat → Option Nat
  | [] => none
  | v :: rest =>
      match g.nextBack? seen [v] with
      | none => g.secondReached seen rest
      | some (u, stack) =>
          match g.nextBack? (u :: seen) stack with
          | none => g.secondReached (u :: seen) rest
          | some (w, _) => some w

/-- The nodes in an order in which every edge leads forward, or a node that prevents it, by two
searches with a stack. -/
def stackOrder (g : Digraph) : Except Nat (List Nat) :=
  match g.secondReached [] g.drainOrder with
  | some u => .error u
  | none => .ok g.drainOrder

/-- A search that has finished only what it has seen, and in which so many visits can be nested that
all nodes will be seen. -/
structure Search.Roomy (g : Digraph) (depth : Nat) (s : Search) : Prop where
  finished_seen : ∀ x ∈ s.finished, x ∈ s.seen
  unseen_le : unseen (List.range g.size) s.seen ≤ depth

section Roomy
variable {depth : Nat} {s s' : Search} {new : List Nat}

theorem roomy_start (g : Digraph) : Search.Roomy g g.size ⟨[], []⟩ where
  finished_seen _ hx := absurd hx List.not_mem_nil
  unseen_le := Nat.le_trans (List.length_filter_le _ _) (Nat.le_of_eq List.length_range)

/-- A node that is discovered takes up one visit. -/
theorem Search.Roomy.discover (h : s.Roomy g (depth + 1)) (hv : v < g.size) (hs : v ∉ s.seen) :
    Search.Roomy g depth ⟨v :: s.seen, s.finished⟩ where
  finished_seen x hx := List.mem_cons_of_mem v (h.finished_seen x hx)
  unseen_le := Nat.le_of_lt_succ
    (Nat.lt_of_lt_of_le (unseen_cons_lt (List.mem_range.mpr hv) hs) h.unseen_le)

/-- Without room left all nodes are seen. -/
theorem Search.Roomy.mem_seen (h : s.Roomy g 0) (hv : v < g.size) : v ∈ s.seen := by
  have hnil := List.eq_nil_of_length_eq_zero (Nat.le_zero.mp h.unseen_le)
  simpa using List.filter_eq_nil_iff.mp hnil v (List.mem_range.mpr hv)

theorem Search.Extends.still_seen (h : s.Extends s' new) (hv : v ∈ s.seen) : v ∈ s'.seen :=
  (h.mem_seen v).mpr (.inr hv)

theorem Search.Extends.roomy (h : s.Extends s' new) (hs : s.Roomy g depth) : s'.Roomy g depth where
  finished_seen x hx := by
    rw [h.finished_eq, List.mem_append] at hx
    exact (h.mem_seen x).mpr (hx.imp_right (hs.finished_seen x))
  unseen_le := Nat.le_trans (Digraph.unseen_le fun _ hx => h.still_seen hx) hs.unseen_le

/-- What is under way after a search was under way before. -/
theorem Search.Extends.under_way (h : s.Extends s' new) (hv : v ∈ s'.seen)
    (hf : v ∉ s'.finished) : v ∈ s.seen ∧ v ∉ s.finished := by
  rw [h.finished_eq, List.mem_append, not_or] at hf
  exact ⟨((h.mem_seen v).mp hv).resolve_left hf.1, hf.2⟩

/-- What a search comes to see it also finishes. -/
theorem Search.Extends.finished (h : s.Extends s' new) (hv : v ∈ s'.seen)
    (hs : v ∈ s.seen → v ∈ s.finished) : v ∈ s'.finished := by
  by_contra hf
  obtain ⟨hseen, hopen⟩ := h.under_way hv hf
  exact hopen (hs hseen)

/-- What was seen and not finished is not finished by a search from somewhere else. -/
theorem Search.Extends.not_finished (h : s.Extends s' new) (hv : v ∈ s.seen)
    (hs : v ∉ s.finished) : v ∉ s'.finished := by
  rw [h.finished_eq, List.mem_append]
  rintro (hnew | hold)
  · exact h.not_seen v hnew hv
  · exact hs hold

end Roomy

section Drain
variable {depth : Nat} {s : Search}

theorem visit_of_mem (hv : v ∈ s.seen) : g.visit depth s v = s := by
  cases depth with
  | zero => rfl
  | succ depth => rw [visit, if_pos hv]

theorem drain_of_finished (hv : v ∈ s.seen) (hf : v ∈ s.finished) :
    g.drain (v :: rest) s = g.drain rest s := by
  rw [drain, if_pos hv, if_pos hf]

/-- To visit nodes that are seen does nothing, so they need not be pushed. -/
theorem foldl_visit_filter (hseen : ∀ x ∈ seen, x ∈ s.seen) :
    (vs.filter fun v => v ∉ seen).foldl (g.visit depth) s = vs.foldl (g.visit depth) s := by
  induction vs generalizing s with
  | nil => rfl
  | cons v vs ih =>
    by_cases hv : v ∈ seen
    · rw [List.filter_cons_of_neg (by simpa), List.foldl_cons, visit_of_mem (hseen v hv), ih hseen]
    · obtain ⟨new, hnew⟩ := g.exists_extends_visit depth s v
      rw [List.filter_cons_of_pos (by simpa), List.foldl_cons, List.foldl_cons,
        ih fun x hx => hnew.still_seen (hseen x hx)]

/-- The stack does for the nodes on top what visiting them one after the other does, if it does so
for one. None of them may be under way already. -/
theorem drain_foldl
    (hone : ∀ {s : Search} {v : Nat} {rest : List Nat}, s.Roomy g depth → v < g.size →
      (v ∈ s.seen → v ∈ s.finished) → g.drain (v :: rest) s = g.drain rest (g.visit depth s v))
    (hroom : s.Roomy g depth) (hlt : ∀ v ∈ vs, v < g.size)
    (hdone : ∀ v ∈ vs, v ∈ s.seen → v ∈ s.finished) :
    g.drain (vs ++ rest) s = g.drain rest (vs.foldl (g.visit depth) s) := by
  induction vs generalizing s with
  | nil => rfl
  | cons v vs ih =>
    obtain ⟨hv, hvs⟩ := List.forall_mem_cons.mp hlt
    obtain ⟨hvdone, hvsdone⟩ := List.forall_mem_cons.mp hdone
    obtain ⟨new, hnew⟩ := g.exists_extends_visit depth s v
    rw [List.cons_append, hone hroom hv hvdone, List.foldl_cons,
      ih (hnew.roomy hroom) hvs fun w hw hwseen => hnew.finished hwseen (hvsdone w hw)]

theorem drain_cons (hroom : s.Roomy g depth) (hv : v < g.size)
    (hdone : v ∈ s.seen → v ∈ s.finished) :
    g.drain (v :: rest) s = g.drain rest (g.visit depth s v) := by
  induction depth generalizing s v rest with
  | zero =>
    have hseen := hroom.mem_seen hv
    rw [drain_of_finished hseen (hdone hseen), visit_of_mem hseen]
  | succ depth ih =>
    by_cases hseen : v ∈ s.seen
    · rw [drain_of_finished hseen (hdone hseen), visit_of_mem hseen]
    -- The node is under way until all that was pushed onto it is done.
    obtain ⟨new, hnew⟩ := exists_extends_foldl (g.exists_extends_visit depth)
      (g.successors v).reverse ⟨v :: s.seen, s.finished⟩
    have hvseen := hnew.still_seen (v := v) List.mem_cons_self
    have hvopen := hnew.not_finished (v := v) List.mem_cons_self
      fun hf => hseen (hroom.finished_seen v hf)
    rw [drain, if_neg hseen, pushUnseen_eq, drain_foldl ih (hroom.discover hv hseen),
      foldl_visit_filter fun x hx => hx, drain, if_pos hvseen, if_neg hvopen, visit, if_neg hseen]
    · intro w hw
      have hedge := mem_successors.mp (List.mem_reverse.mp (List.mem_filter.mp hw).1)
      exact (g.edges_lt _ hedge).2
    · intro w hw hwseen
      exact absurd hwseen (by simpa using (List.mem_filter.mp hw).2)

theorem drainOrder_eq (g : Digraph) : g.drainOrder = g.searchOrder := by
  have fold {s : Search} (vs : List Nat) (hroom : s.Roomy g g.size)
      (hlt : ∀ v ∈ vs, v < g.size) (hdone : ∀ v, v ∈ s.seen → v ∈ s.finished) :
      vs.foldl (fun s v => if v ∈ s.seen then s else g.drain [v] s) s =
        vs.foldl (g.visit g.size) s := by
    induction vs generalizing s with
    | nil => rfl
    | cons v vs ih =>
      obtain ⟨hv, hvs⟩ := List.forall_mem_cons.mp hlt
      obtain ⟨new, hnew⟩ := g.exists_extends_visit g.size s v
      have hstep : (if v ∈ s.seen then s else g.drain [v] s) = g.visit g.size s v := by
        split
        · rename_i hseen
          exact (visit_of_mem hseen).symm
        · rw [drain_cons hroom hv (hdone v), drain]
      rw [List.foldl_cons, List.foldl_cons, hstep,
        ih (hnew.roomy hroom) hvs fun w hw => hnew.finished hw (hdone w)]
  rw [drainOrder, searchOrder, fold _ (roomy_start g) (fun v => List.mem_range.mp)
    fun v hv => absurd hv List.not_mem_nil]

end Drain

theorem map_fst_nextBack? (g : Digraph) (h : ∀ u ∈ stack, u ∉ seen) :
    (g.nextBack? seen stack).map Prod.fst = stack.head? := by
  cases stack with
  | nil => rfl
  | cons v stack =>
    rw [nextBack?, if_neg (h v List.mem_cons_self)]
    rfl

/-- If no node of the order is seen yet, a search from each of them comes to a second node where the
first one is misplaced. -/
theorem secondReached_eq {order : List Nat} (hn : order.Nodup) (hs : ∀ v ∈ order, v ∉ seen) :
    g.secondReached seen order = g.firstMisplaced seen order := by
  induction order generalizing seen with
  | nil => rfl
  | cons v rest ih =>
    obtain ⟨hv, hn⟩ := List.nodup_cons.mp hn
    obtain ⟨hvs, hrest⟩ := List.forall_mem_cons.mp hs
    have hrest' : ∀ u ∈ rest, u ∉ v :: seen := by
      intro u hu
      exact List.not_mem_cons_of_ne_of_not_mem (fun he => hv (he ▸ hu)) (hrest u hu)
    have hstack := pushUnseen_eq (v :: seen) (g.predecessors v) []
    rw [List.append_nil] at hstack
    have hnew : ∀ u ∈ pushUnseen (v :: seen) (g.predecessors v) [], u ∉ v :: seen := by
      intro u hu
      rw [hstack] at hu
      simpa using (List.mem_filter.mp hu).2
    have hnext := g.map_fst_nextBack? hnew
    rw [hstack, List.head?_filter] at hnext
    rw [secondReached, firstMisplaced, nextBack?, if_neg hvs, ← hnext, ← ih hn hrest', hstack]
    dsimp only
    cases g.nextBack? (v :: seen) _ <;> rfl

/-- The two searches with a stack give the order of the recursive search, or the node that is
misplaced in it. -/
theorem stackOrder_eq (g : Digraph) : g.stackOrder = g.topologicalOrder := by
  have hsecond : g.secondReached [] g.searchOrder = g.firstMisplaced [] g.searchOrder :=
    secondReached_eq g.nodup_searchOrder fun _ _ => List.not_mem_nil
  unfold stackOrder topologicalOrder
  cases h : g.firstMisplaced [] g.searchOrder with
  | none => simp only [drainOrder_eq, hsecond, h]
  | some u => simp only [drainOrder_eq, hsecond, h]

end Digraph
end ParseForest
