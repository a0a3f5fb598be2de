import Flowchart.Proofs.Copy
/-! What is cut out at an id is all that can be reached from it: each node once, none before one
that fewer edges lead to, and each edge as often as it is listed. The edges that are cut out tell in
which order the ids were visited. -/
namespace Flowchart

/-- The ids visited from `start`, in order: `start`, and the ends of the edges where they come
first. -/
def Subtree.visited (sub : Subtree) (start : Key) : List Key :=
  distinct (start :: sub.edges.map Edge.head)

/-- What is cut out at `start` is what can be reached from there. -/
structure Subtree.IsCutAt (nodes : List Node) (edges : List Edge) (start : Key) (sub : Subtree) :
    Prop where
  /-- It holds the first node of every id that can be reached, and no other. -/
  mem_nodes : ∀ n, n ∈ sub.nodes ↔ ∃ k, Reaches edges start k ∧ lookup nodes k = some n
  /-- It holds no node twice. -/
  once : (sub.nodes.map Node.key).Nodup
  /-- No node comes before one that fewer edges lead to. -/
  nearest : sub.nodes.Pairwise fun a b =>
    ∀ n, Walk edges n start b.key → ∃ m ≤ n, Walk edges m start a.key
  /-- All ids that can be reached are visited, those of no node as well. -/
  mem_visited : ∀ k, k ∈ sub.visited start ↔ Reaches edges start k
  /-- Its nodes stand in the order of the visit. -/
  nodes_eq : sub.nodes = (sub.visited start).filterMap (lookup nodes)
  /-- Its edges are those that leave the ids visited, id after id. -/
  edges_eq : sub.edges = (sub.visited start).flatMap (outgoing edges)
  /-- An edge from an id that can be reached comes as often as it is listed. -/
  count_edges : ∀ e, Reaches edges start e.tail → sub.edges.count e = edges.count e
  /-- It holds no other edge. -/
  reaches_tail : ∀ e ∈ sub.edges, Reaches edges start e.tail

section
variable {nodes : List Node} {edges : List Edge} {start k : Key} {n : Node} {e : Edge}

private theorem visited_subtree :
    (subtree nodes edges start).visited start = visitOrder edges start :=
  visitOrder_eq_distinct.symm

private theorem mem_nodes_subtree : n ∈ (subtree nodes edges start).nodes ↔
    ∃ k, Reaches edges start k ∧ lookup nodes k = some n := by
  simp only [subtree, List.mem_filterMap, mem_visitOrder]

private theorem mem_edges_subtree : e ∈ (subtree nodes edges start).edges ↔
    e ∈ edges ∧ Reaches edges start e.tail := by
  simp only [subtree, List.mem_flatMap, mem_visitOrder, mem_outgoing]
  constructor
  · rintro ⟨k, hk, he, rfl⟩
    exact ⟨he, hk⟩
  · rintro ⟨he, hk⟩
    exact ⟨e.tail, hk, he, rfl⟩

/-- The ids of the nodes are those visited, without the ids of no node. -/
private theorem keys_nodes_subtree : (subtree nodes edges start).nodes.map Node.key =
    (visitOrder edges start).filter fun k => (lookup nodes k).isSome := by
  have hkey (k : Key) : (lookup nodes k).map Node.key = if (lookup nodes k).isSome then some k else none := by
    cases hn : lookup nodes k with
    | none => rfl
    | some n => simp [key_of_lookup hn]
  rw [subtree, List.map_filterMap, ← List.filterMap_eq_filter]
  refine List.filterMap_congr fun k _ => ?_
  rw [hkey, Option.guard]

private theorem nodup_keys_subtree : ((subtree nodes edges start).nodes.map Node.key).Nodup := by
  rw [keys_nodes_subtree]
  exact nodup_visitOrder.filter _

private theorem pairwise_nodes_subtree : (subtree nodes edges start).nodes.Pairwise fun a b =>
    ∀ n, Walk edges n start b.key → ∃ m ≤ n, Walk edges m start a.key := by
  rw [← List.pairwise_map (f := Node.key)
    (R := fun a b => ∀ n, Walk edges n start b → ∃ m ≤ n, Walk edges m start a), keys_nodes_subtree]
  exact pairwise_visitOrder.filter _

/-- The edges that leave an id are cut out together, in their order. -/
private theorem count_edges_subtree (he : Reaches edges start e.tail) :
    (subtree nodes edges start).edges.count e = edges.count e := by
  have hcount (es : List Edge) : (outgoing es e.tail).count e = es.count e :=
    List.count_filter (by simp)
  rw [← hcount, (alike_subtree nodes edges start).leaving e.tail he, hcount]

/-- Both ends of an edge that is cut out can be reached. -/
theorem isAttached_subtree (he : e ∈ (subtree nodes edges start).edges)
    (ha : e.isAttached nodes = true) : e.isAttached (subtree nodes edges start).nodes = true := by
  obtain ⟨he, hr⟩ := mem_edges_subtree.1 he
  have hh : Reaches edges start e.head := .tail hr ⟨e, he, rfl, rfl⟩
  have halike := alike_subtree nodes edges start
  rw [isAttached_iff, halike.node _ hr, halike.node _ hh]
  exact isAttached_iff.1 ha

/-- What is cut out at an id is what can be reached from there, and no edge of it is dropped if
every edge of the graph joins two nodes. -/
theorem isCutAt_subtree (nodes : List Node) (edges : List Edge) (start : Key) :
    let sub := subtree nodes edges start
    sub.IsCutAt nodes edges start ∧ ((∀ e ∈ edges, e.isAttached nodes = true) →
      attached sub.nodes sub.edges = sub.edges ∧ droppedNotices sub.nodes sub.edges = []) := by
  intro sub
  refine ⟨?_, fun ha => ?_⟩
  · exact {
      mem_nodes := fun _ => mem_nodes_subtree
      once := nodup_keys_subtree
      nearest := pairwise_nodes_subtree
      mem_visited := fun _ => by rw [visited_subtree, mem_visitOrder]
      nodes_eq := by rw [visited_subtree]; rfl
      edges_eq := by rw [visited_subtree]; rfl
      count_edges := fun _ => count_edges_subtree
      reaches_tail := fun _ he => (mem_edges_subtree.1 he).2 }
  · have hall : ∀ e ∈ sub.edges, e.isAttached sub.nodes = true := fun e he =>
      isAttached_subtree he (ha e (mem_edges_subtree.1 he).1)
    refine ⟨List.filter_eq_self.2 hall, ?_⟩
    have hnone : (sub.edges.filter fun e => !e.isAttached sub.nodes) = [] :=
      List.filter_eq_nil_iff.2 fun e he => by simp [hall e he]
    rw [droppedNotices, hnone, List.map_nil]

/-- A ring of three with two edges in one place, an edge out of the ring, and one into it. -/
def ringedNodes : List Node :=
  [⟨"a", "actionNode", some [], some []⟩, ⟨"b", "actionNode", some [], some []⟩,
    ⟨"c", "ifNode", some [], some []⟩, ⟨"d", "actionNode", some [], some []⟩,
    ⟨"s", "triggerNode", some [], some []⟩]

def ringedEdges : List Edge :=
  [⟨"1", "a", "b", .null, .null, some []⟩, ⟨"2", "b", "c", .null, .null, some []⟩,
    ⟨"3", "c", "a", "yes", .null, some []⟩, ⟨"4", "c", "d", "no", .null, some []⟩,
    ⟨"5", "s", "a", .null, .null, some []⟩, ⟨"2", "b", "c", .null, .null, some []⟩]

theorem isCutAt_subtree_ringed :
    let sub := subtree ringedNodes ringedEdges (.text "b")
    sub.visited (.text "b") = [.text "b", .text "c", .text "a", .text "d"] ∧
      sub.edges.count ⟨"2", "b", "c", .null, .null, some []⟩ = 2 ∧
      attached sub.nodes sub.edges = sub.edges := by
  intro sub
  obtain ⟨hcut, hattached⟩ := isCutAt_subtree ringedNodes ringedEdges (.text "b")
  have hcount : sub.edges.count ⟨"2", "b", "c", .null, .null, some []⟩ =
      ringedEdges.count ⟨"2", "b", "c", .null, .null, some []⟩ := hcut.count_edges _ .refl
  refine ⟨by decide +kernel, hcount, (hattached (by decide)).1⟩

end

end Flowchart
