import Flowchart.Graph.Role
/-! The actions that follow a node without another condition between. -/
namespace Flowchart

/-- An action as a branch lists it: what it waits for and how it is run come from the edge that
discovered it. -/
structure ActionRef where
  node : Scalar
  type : Value
  order : Value
  parallel : Bool
  dependsOn : List Scalar
deriving DecidableEq, Inhabited

namespace ActionRef

def key (r : ActionRef) : Key := r.node.key

/-- The reference to `target`, reached by `edge` from `predecessor`. -/
def ofEdge (target : Node) (edge : Edge) (predecessor : Scalar) : ActionRef :=
  ⟨target.id, target.type, edge.fields.valueOr "order" (.int 0), edge.fields.isOn "parallel",
    [predecessor]⟩

end ActionRef

/-- The target of an edge, when it is a node and no condition. -/
def actionAt (nodes : List Node) (e : Edge) : Option Node :=
  (lookup nodes e.head).filter fun n => !n.isCondition

/-- The actions that the edges discover, one after the other, past the ids already met. -/
def discover (nodes : List Node) (predecessor : Scalar) : List Edge → List Key → List ActionRef
  | [], _ => []
  | e :: es, met =>
    match actionAt nodes e with
    | none => discover nodes predecessor es met
    | some n =>
      if n.key ∈ met then discover nodes predecessor es met
      else .ofEdge n e predecessor :: discover nodes predecessor es (n.key :: met)

/-- The ids of nodes not yet met. -/
def unmet (nodes : List Node) (met : List Key) : List Key :=
  distinct ((nodes.map Node.key).filter fun k => k ∉ met)

private theorem key_of_actionAt {nodes : List Node} {e : Edge} {n : Node}
    (h : actionAt nodes e = some n) : n.key ∈ nodes.map Node.key := by
  obtain ⟨h, -⟩ := Option.filter_eq_some_iff.1 h
  exact List.mem_map_of_mem (mem_of_lookup h)

private theorem unmet_cons {nodes : List Node} {met : List Key} (k : Key) :
    unmet nodes (k :: met) = (unmet nodes met).filter (· ≠ k) := by
  unfold unmet
  induction nodes.map Node.key with
  | nil => rfl
  | cons a as ih =>
    by_cases hk : a = k <;> by_cases hm : a ∈ met <;>
      simp_all [distinct, distinctOn, List.filter_filter, Bool.and_comm]

private theorem length_unmet_cons {nodes : List Node} {met : List Key} {k : Key}
    (hk : k ∈ nodes.map Node.key) (hm : k ∉ met) :
    (unmet nodes (k :: met)).length + 1 = (unmet nodes met).length := by
  rw [unmet_cons]
  have hmem : k ∈ unmet nodes met := by
    simp only [unmet, mem_distinct, List.mem_filter]
    exact ⟨hk, by simpa using hm⟩
  have hnd : (unmet nodes met).Nodup := nodup_distinct _
  generalize unmet nodes met = l at hmem hnd
  induction l with
  | nil => simp at hmem
  | cons a l ih =>
    obtain ⟨ha, hnd⟩ := List.nodup_cons.1 hnd
    by_cases h : a = k
    · subst h
      have : l.filter (· ≠ a) = l :=
        List.filter_eq_self.2 fun b hb => by
          simpa using fun e : b = a => ha (e ▸ hb)
      rw [List.filter_cons_of_neg (by simp), this, List.length_cons]
    · have := ih (by simpa [Ne.symm h] using hmem) hnd
      simpa [h] using this

/-- Each discovered action is one id fewer that is still to be met. -/
theorem length_discover (nodes : List Node) (p : Scalar) (es : List Edge) (met : List Key) :
    (unmet nodes ((discover nodes p es met).map ActionRef.key ++ met)).length +
      (discover nodes p es met).length = (unmet nodes met).length := by
  induction es generalizing met with
  | nil => simp [discover]
  | cons e es ih =>
    rw [discover]
    split
    · exact ih met
    · next n h =>
      split
      · exact ih met
      · next hm =>
        have h₁ := ih (n.key :: met)
        have h₂ := length_unmet_cons (key_of_actionAt h) hm
        have h₃ : ∀ ks : List Key, (unmet nodes (n.key :: (ks ++ met))).length =
            (unmet nodes (ks ++ n.key :: met)).length := by
          intro ks
          unfold unmet
          congr 3
          funext k
          simp [or_left_comm]
        simp only [List.map_cons, List.cons_append, List.length_cons, ActionRef.key,
          ActionRef.ofEdge] at h₁ ⊢
        have h₄ := h₃ ((discover nodes p es (n.key :: met)).map ActionRef.key)
        simp only [Node.key] at h₁ h₂ h₄ ⊢
        omega

/-- Expand the ids of the queue in turn; what one of them discovers joins the end. -/
def closureFrom (nodes : List Node) (edges : List Edge) (queue : List Scalar) (met : List Key) :
    List ActionRef :=
  match queue with
  | [] => []
  | x :: rest =>
    let found := discover nodes x (outgoing edges x.key) met
    found ++ closureFrom nodes edges (rest ++ found.map ActionRef.node)
      (found.map ActionRef.key ++ met)
termination_by 2 * (unmet nodes met).length + queue.length
decreasing_by
  have h := length_discover nodes x (outgoing edges x.key) met
  simp only [List.length_append, List.length_map, List.length_cons]
  omega

/-- The actions that can be reached from `start` through actions alone, nearest first, each
waiting for the one it was discovered from. Ids in `visited` are not entered, and nothing
follows from a start among them. -/
def following (nodes : List Node) (edges : List Edge) (visited : List Key) (start : Scalar) :
    List ActionRef :=
  if start.key ∈ visited then [] else closureFrom nodes edges [start] (start.key :: visited)

/-- The nodes whose type decides where the search for followers goes. -/
def followingSees (nodes : List Node) (edges : List Edge) (visited : List Key) (start : Scalar) :
    List Node :=
  if start.key ∈ visited then []
  else (start.key :: (following nodes edges visited start).map ActionRef.key).flatMap fun k =>
    (outgoing edges k).filterMap fun e => lookup nodes e.head

/-- `following`, unless a node on the way has a list or a mapping for its type. -/
def following? (nodes : List Node) (edges : List Edge) (visited : List Key) (start : Scalar) :
    Except Fault (List ActionRef) :=
  if (followingSees nodes edges visited start).all fun n => n.type.isScalar then
    .ok (following nodes edges visited start)
  else .error .notKey

end Flowchart
