import ParseForest.Forest.Agreement
import ParseForest.Forest.Fingerprint
import ParseForest.Session

/-!
# Terms

A term is a forest whose nodes are tagged with a number and a fingerprint.
Occurrences with one number are one shared node. Terms are built in a session,
which gives every new node the next number, so a node has a higher number than
its children.
-/
namespace ParseForest

/-- What a session keeps with a node. -/
structure Tag where
  number : Nat
  fingerprint : Nat
deriving DecidableEq, Inhabited

abbrev Term := Forest Tag

namespace Term

def number (t : Term) : Nat := t.mark.number

def fingerprint (t : Term) : Nat := t.mark.fingerprint

/-- Whether two terms are one node. -/
def sameNode (a b : Term) : Bool := a.number == b.number

/-- Whether two lists hold the same nodes. -/
def sameNodes (xs ys : List Term) : Bool := xs.map number == ys.map number

@[simp] theorem sameNode_iff {a b : Term} : sameNode a b ↔ a.number = b.number := beq_iff_eq

@[simp] theorem sameNodes_iff {xs ys : List Term} :
    sameNodes xs ys ↔ xs.map number = ys.map number := beq_iff_eq

/-- What can be told about the agreement of two terms from their tags: a node agrees with itself,
and terms with different fingerprints do not agree. -/
def agreement? (a b : Term) : Option Bool :=
  if a.sameNode b then some true
  else if a.fingerprint = b.fingerprint then none
  else some false

/-- Terms are equal if they agree. -/
instance : BEq Term := ⟨Forest.agreesBy agreement?⟩

theorem beq_eq (a b : Term) : (a == b) = Forest.agreesBy agreement? a b := rfl

end Term

namespace Build

/-- The tag of a node that is about to be made. -/
def tag (fingerprint : Nat) : Build Tag := return ⟨← freshNode, fingerprint⟩

def constant (value : Symbol) (production : Production) (span : Span) : Build Term :=
  return .constant (← tag (Fingerprint.nodes.constant value production)) value production span

/-- Apply a production to one term for each slot. -/
def application (production : Production) (items : List Term) (span : Span) : Build Term :=
  if items.length = production.arity then do
    let fingerprint := Fingerprint.nodes.application production (items.map Term.fingerprint)
    return .application (← tag fingerprint) production items span
  else throw (.arityMismatch production items.length span)

/-- Join alternatives. Of equal ones the first is kept. -/
def ambiguity (items : List Term) (span : Span) : Build Term := do
  let kept := items.eraseDups
  return .ambiguity (← tag (Fingerprint.nodes.ambiguity (kept.map Term.fingerprint))) kept span

def grouping (items : List Term) (span : Span) : Build Term :=
  return .grouping (← tag (Fingerprint.nodes.grouping (items.map Term.fingerprint))) items span

/-- A new empty marker. -/
def emptyMarker (span : Span) : Build Term := grouping [] span

/-- A new node that differs from `t` in its children; a constant has none and stays. -/
def withItems (t : Term) (items : List Term) : Build Term :=
  match t with
  | .constant .. => return t
  | .application _ production _ span => application production items span
  | .ambiguity _ _ span => ambiguity items span
  | .grouping _ _ span => grouping items span

/-- The term `t` with other children, which is `t` itself if they are the same nodes. -/
def rebuild (t : Term) (items : List Term) : Build Term :=
  if Term.sameNodes t.items items then return t else withItems t items

theorem constant_run (value : Symbol) (production : Production) (span : Span) (s : Session) :
    (constant value production span).run s =
      .ok (.constant ⟨s.nodes, Fingerprint.nodes.constant value production⟩ value production span,
        { s with nodes := s.nodes + 1 }) := rfl

theorem application_run {production : Production} {items : List Term}
    (h : items.length = production.arity) (span : Span) (s : Session) :
    (application production items span).run s =
      .ok (.application
          ⟨s.nodes, Fingerprint.nodes.application production (items.map Term.fingerprint)⟩
          production items span,
        { s with nodes := s.nodes + 1 }) := by
  rw [application, if_pos h]
  rfl

theorem application_run_of_ne {production : Production} {items : List Term}
    (h : items.length ≠ production.arity) (span : Span) (s : Session) :
    (application production items span).run s =
      .error (.arityMismatch production items.length span) := by
  rw [application, if_neg h]
  rfl

theorem ambiguity_run (items : List Term) (span : Span) (s : Session) :
    (ambiguity items span).run s =
      .ok (.ambiguity
          ⟨s.nodes, Fingerprint.nodes.ambiguity (items.eraseDups.map Term.fingerprint)⟩
          items.eraseDups span,
        { s with nodes := s.nodes + 1 }) := rfl

theorem grouping_run (items : List Term) (span : Span) (s : Session) :
    (grouping items span).run s =
      .ok (.grouping ⟨s.nodes, Fingerprint.nodes.grouping (items.map Term.fingerprint)⟩ items span,
        { s with nodes := s.nodes + 1 }) := rfl

theorem rebuild_of_sameNodes {t : Term} {items : List Term} (h : Term.sameNodes t.items items) :
    rebuild t items = pure t := if_pos h

end Build
end ParseForest
