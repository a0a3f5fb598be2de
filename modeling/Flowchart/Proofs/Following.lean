import Flowchart.Graph.Subtree
import Flowchart.Proofs.Listing
/-! The actions that follow an id are what is cut out at it along the edges to actions that may be
entered. -/
namespace Flowchart

section
variable {nodes : List Node} {edges : List Edge} {visited : List Key} {x : Scalar}
  {refs : List ActionRef}

theorem following?_eq_ok (h : following? nodes edges visited x = .ok refs) :
    refs = following nodes edges visited x := by
  unfold following? at h
  split at h
  · exact (Except.ok.inj h).symm
  · cases h

private theorem following?_of_mem (h : x.key ∈ visited) :
    following? nodes edges visited x = .ok [] := by
  rw [following?, followingSees, if_pos h, following_of_mem h]
  rfl

theorem exists_following? (ht : ∀ n ∈ nodes, n.type.isScalar = true) :
    ∃ refs, following? nodes edges visited x = .ok refs := by
  refine ⟨following nodes edges visited x, if_pos (List.all_eq_true.2 fun n hn => ?_)⟩
  exact ht n (mem_nodes_of_mem_followingSees hn)

/-- The actions that follow are named as their nodes are. -/
private theorem map_node_following : (following nodes edges visited x).map ActionRef.node =
    (((following nodes edges visited x).map ActionRef.key).filterMap (lookup nodes)).map Node.id := by
  rw [List.filterMap_map, List.map_filterMap, ← List.filterMap_eq_map]
  refine List.filterMap_congr fun r hr => ?_
  obtain ⟨n, hn, -, hid⟩ := exists_node_of_comesAlong (comesAlong_following hr)
  simp only [Function.comp_apply, hn, Option.map_some, hid]

/-- Of the nodes that are found under some ids, the first id is that of the first alone. -/
private theorem filterMap_lookup_cons {k : Key} {ks : List Key} (hk : k ∉ ks) :
    ((k :: ks).filterMap (lookup nodes)).filter (fun n => n.key ≠ k) =
      ks.filterMap (lookup nodes) := by
  have hrest : (ks.filterMap (lookup nodes)).filter (fun n => n.key ≠ k) =
      ks.filterMap (lookup nodes) := by
    refine List.filter_eq_self.2 fun n hn => ?_
    obtain ⟨l, hl, hln⟩ := List.mem_filterMap.1 hn
    have hne : n.key ≠ k := fun he => hk (he ▸ key_of_lookup hln ▸ hl)
    simpa using hne
  cases hn : lookup nodes k with
  | none => rwa [List.filterMap_cons_none hn]
  | some n =>
    rwa [List.filterMap_cons_some hn, List.filter_cons_of_neg (by simp [key_of_lookup hn])]

/-- The actions that follow an id are the nodes that are cut out at it, without its own, when only
the edges to actions that may be entered are left. -/
theorem following_eq_subtree (nodes : List Node) (edges : List Edge) (visited : List Key) (x : Scalar) :
    (x.key ∈ visited → following? nodes edges visited x = .ok []) ∧
    (x.key ∉ visited → ∀ refs, following? nodes edges visited x = .ok refs →
      refs.map ActionRef.node =
        ((subtree nodes (actionEdges nodes edges visited) x.key).nodes.map Node.id).filter
          fun id => id.key ≠ x.key) ∧
    ((∀ n ∈ nodes, n.type.isScalar = true) →
      ∃ refs, following? nodes edges visited x = .ok refs) := by
  refine ⟨following?_of_mem, fun hx refs h => ?_, exists_following?⟩
  obtain rfl := following?_eq_ok h
  have hkeys : x.key :: (following nodes edges visited x).map ActionRef.key =
      visitOrder (actionEdges nodes edges visited) x.key := keys_following hx
  have hnot : x.key ∉ (following nodes edges visited x).map ActionRef.key := fun hk =>
    (mem_keys_following.1 hk).2.1 rfl
  calc (following nodes edges visited x).map ActionRef.node
      = (((following nodes edges visited x).map ActionRef.key).filterMap (lookup nodes)).map
          Node.id := map_node_following
    _ = (((visitOrder (actionEdges nodes edges visited) x.key).filterMap (lookup nodes)).filter
          fun n => n.key ≠ x.key).map Node.id := by rw [← hkeys, filterMap_lookup_cons hnot]
    _ = ((subtree nodes (actionEdges nodes edges visited) x.key).nodes.map Node.id).filter
          fun id => id.key ≠ x.key := by rw [List.filter_map]; rfl

/-- Two ways from `s` to `r`, one of which is not to be entered; from `r` on to a condition, to no
node, and back. -/
def forkNodes : List Node :=
  [⟨"s", "actionNode", some [], some []⟩, ⟨"p", "actionNode", some [], some []⟩,
    ⟨"q", "textNode", some [], some []⟩, ⟨"r", "actionNode", some [], some []⟩,
    ⟨"k", "ifNode", some [], some []⟩, ⟨"z", "actionNode", some [], some []⟩]

def forkEdges : List Edge :=
  [⟨"1", "s", "p", .null, .null, some []⟩, ⟨"2", "s", "q", .null, .null, some []⟩,
    ⟨"3", "p", "r", .null, .null, some []⟩, ⟨"4", "q", "r", .null, .null, some []⟩,
    ⟨"5", "r", "k", .null, .null, some []⟩, ⟨"6", "k", "z", "yes", .null, some []⟩,
    ⟨"7", "r", "gone", .null, .null, some []⟩, ⟨"8", "r", "s", .null, .null, some []⟩]

theorem following_eq_subtree_fork :
    (∃ refs, following? forkNodes forkEdges [.text "p"] "s" = .ok refs ∧
      refs.map ActionRef.node = ["q", "r"]) ∧
    following? forkNodes forkEdges [.text "p"] "p" = .ok [] := by
  obtain ⟨-, hnodes, htotal⟩ := following_eq_subtree forkNodes forkEdges [.text "p"] "s"
  obtain ⟨hnone, -⟩ := following_eq_subtree forkNodes forkEdges [.text "p"] "p"
  obtain ⟨refs, hrefs⟩ := htotal (by decide)
  refine ⟨⟨refs, hrefs, ?_⟩, hnone (by decide)⟩
  rw [hnodes (by decide) refs hrefs]
  decide +kernel

end

end Flowchart
