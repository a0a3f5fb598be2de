import Flowchart.Export.Load
import Flowchart.Proofs.Join
/-! Which graphs of an import compile. Ids and types of an import are texts and no data is missing,
so all that can stop the compiler is a condition: an entry that is made for a node that is no
condition, a branch whose label is no scalar, or a label that cannot be written. -/
namespace Flowchart

/-- The edges that lead to a condition. -/
def conditionEdges (nodes : List Node) (edges : List Edge) : List Edge :=
  edges.filter fun e => (conditionAt nodes e).isSome

section
variable {nodes : List Node} {edges : List Edge} {visited : List Key} {c n : Node} {a b k : Key}

private theorem leads_conditionEdges : Leads (conditionEdges nodes edges) a b ↔
    Leads edges a b ∧ ∃ n, lookup nodes b = some n ∧ n.isCondition = true := by
  simp only [Leads, conditionEdges, List.mem_filter, Option.isSome_iff_exists, conditionAt_eq_some]
  constructor
  · rintro ⟨e, ⟨he, hn⟩, ht, rfl⟩
    exact ⟨⟨e, he, ht, rfl⟩, hn⟩
  · rintro ⟨⟨e, he, ht, rfl⟩, hn⟩
    exact ⟨e, ⟨he, hn⟩, ht, rfl⟩

private theorem isReadableAlong_iff {e : Edge} (ht : ∀ n ∈ nodes, n.type.isScalar = true) :
    isReadableAlong nodes edges visited e = true ↔ e.branch.isScalar = true ∧
      ∀ n, lookup nodes e.head = some n → n.isCondition = true →
        areReadable nodes edges visited n = true := by
  unfold isReadableAlong
  cases hn : lookup nodes e.head with
  | none => simp
  | some n =>
    have hsees : ((followingSees nodes edges visited n.id).all fun m => m.type.isScalar) = true :=
      List.all_eq_true.2 fun m hm => ht m (mem_nodes_of_mem_followingSees hm)
    cases hc : n.isCondition <;> simp [ht n (mem_of_lookup hn), hc, hsees]

/-- The branches of a condition can be read when the labels at every condition that is reached
through conditions alone are scalars. -/
theorem areReadable_iff (ht : ∀ n ∈ nodes, n.type.isScalar = true) (hc : c.key ∉ visited) :
    areReadable nodes edges visited c = true ↔
      ∀ k, Reaches (unmarked (conditionEdges nodes edges) visited) c.key k →
        ∀ e ∈ outgoing edges k, e.branch.isScalar = true := by
  induction visited, c using areReadable.induct edges with
  | case1 visited c hm => exact absurd hm hc
  | case2 visited c hm ih =>
    rw [areReadable_eq hm, List.all_eq_true]
    constructor
    · intro hall k hr e he
      obtain ⟨m, w⟩ := reaches_iff_walk.1 hr
      -- a way to another condition can be taken without coming back to `c`
      rcases w.mark (k := c.key) with rfl | ⟨_, v, -, hv, hvs, w⟩ | ⟨hne, -⟩
      · exact ((isReadableAlong_iff ht).1 (hall e he)).1
      · obtain ⟨⟨e', he', ht', rfl⟩, n, hn, hnc⟩ := leads_conditionEdges.1 hv
        have hout : e' ∈ outgoing edges c.key := mem_outgoing.2 ⟨he', ht'⟩
        have hkey : n.key = e'.head := key_of_lookup hn
        have hread := ((isReadableAlong_iff ht).1 (hall e' hout)).2 n hn hnc
        rw [← hkey] at hvs w
        exact (ih e' hout n hvs).1 hread k w.reaches e he
      · exact absurd rfl hne
    · intro hall e he
      refine (isReadableAlong_iff ht).2 ⟨hall c.key .refl e he, fun n hn hnc => ?_⟩
      by_cases hmem : n.key ∈ c.key :: visited
      · exact areReadable_of_mem hmem
      · refine (ih e he n hmem).2 fun k hr e' he' => hall k ?_ e' he'
        have hkey : n.key = e.head := key_of_lookup hn
        have hleads : Leads (conditionEdges nodes edges) c.key n.key := by
          obtain ⟨hm, htail⟩ := mem_outgoing.1 he
          exact leads_conditionEdges.2 ⟨⟨e, hm, htail, hkey.symm⟩, n, hkey ▸ hn, hnc⟩
        have hout : n.key ∉ visited := fun h => hmem (List.mem_cons_of_mem _ h)
        exact .head (leads_unmarked.2 ⟨hleads, hout⟩) (hr.mono fun e he => mem_unmarked_of_cons he)

end

/-- Ids are texts, types scalars, and no data is missing. -/
structure IsPlain (nodes : List Node) (edges : List Edge) : Prop where
  id : ∀ n ∈ nodes, ∃ t, n.id = .text t
  type : ∀ n ∈ nodes, n.type.isScalar = true
  data : ∀ n ∈ nodes, ∃ fs, n.data = some fs
  source : ∀ e ∈ edges, ∃ t, e.source = .text t

private theorem isPlain_toGraph (s : Spec) : IsPlain s.toGraph.nodes s.toGraph.edges where
  id n hn := by
    obtain ⟨m, -, rfl⟩ := List.mem_map.1 hn
    exact ⟨m.id, rfl⟩
  type n hn := by
    obtain ⟨m, -, rfl⟩ := List.mem_map.1 hn
    rfl
  data n hn := by
    obtain ⟨m, -, rfl⟩ := List.mem_map.1 hn
    exact ⟨m.data, rfl⟩
  source e he := by
    obtain ⟨m, -, rfl⟩ := List.mem_map.1 he
    exact ⟨m.source, rfl⟩

private theorem isPlain_of_load {t : Text} {g : Graph} (h : Export.load t = .ok g) :
    IsPlain g.nodes g.edges := by
  obtain ⟨-, s, -, -, rfl⟩ := Export.load_eq_ok.1 h
  exact isPlain_toGraph s

section
variable {nodes : List Node} {edges : List Edge} {settings : Metadata.Source} {n : Node} {k : Key}

/-- Texts have an order. -/
private theorem exists_sorted? {ids : List Scalar} (h : ∀ s ∈ ids, ∃ t, s = .text t) :
    ∃ ss, sorted? ids = .ok ss := by
  have hall : (ids.all fun a => ids.all fun b => (a.atMost? b).isSome) = true := by
    refine List.all_eq_true.2 fun a ha => List.all_eq_true.2 fun b hb => ?_
    obtain ⟨s, rfl⟩ := h a ha
    obtain ⟨t, rfl⟩ := h b hb
    rfl
  simp only [sorted?, hall, if_true]
  split <;> exact ⟨_, rfl⟩

private theorem exists_dependencies? (k : Key) (hs : ∀ e ∈ edges, ∃ t, e.source = .text t) :
    ∃ deps, dependencies? edges k = .ok deps := by
  refine exists_sorted? fun s hmem => ?_
  obtain ⟨e, he, rfl⟩ := List.mem_map.1 (mem_of_mem_distinctOn hmem)
  exact hs e (mem_incoming.1 he).1

private theorem exists_triggerEntry (hd : ∃ fs, n.data = some fs) :
    ∃ t, TriggerEntry.ofNode? n = .ok t := by
  obtain ⟨fs, hfs⟩ := hd
  unfold TriggerEntry.ofNode?
  rw [Node.fields?, hfs]
  exact ⟨_, rfl⟩

private theorem exists_actionEntry_of_data (hd : ∃ fs, n.data = some fs)
    (hs : ∀ e ∈ edges, ∃ t, e.source = .text t) : ∃ a, ActionEntry.ofNode? edges n = .ok a := by
  obtain ⟨fs, hfs⟩ := hd
  obtain ⟨deps, hdeps⟩ := exists_dependencies? n.key hs
  unfold ActionEntry.ofNode?
  rw [Node.fields?, hfs, hdeps]
  exact ⟨_, rfl⟩

private theorem details_of_isCondition (h : n.isCondition = true) :
    ∃ e o v b, n.settings.details = .condition e o v b := by
  have hr : n.role = .condition := by simpa [Node.isCondition] using h
  simp only [Node.settings, Settings.ofNode, Settings.Details.ofNode, hr]
  exact ⟨_, _, _, _, rfl⟩

/-- The entry of a condition can be made when its branches can be read. -/
theorem exists_conditionEntry_iff (hd : ∃ fs, n.data = some fs)
    (hs : ∀ e ∈ edges, ∃ t, e.source = .text t) :
    (∃ c, ConditionEntry.ofNode? nodes edges n = .ok c) ↔
      n.isCondition = true ∧ areReadable nodes edges [] n = true := by
  constructor
  · rintro ⟨c, hc⟩
    obtain ⟨-, hcond, hbs⟩ := of_conditionEntry hc
    refine ⟨hcond, ?_⟩
    by_contra hread
    rw [branches?, if_neg hread] at hbs
    cases hbs
  · rintro ⟨hcond, hread⟩
    obtain ⟨e, o, v, b, hdetails⟩ := details_of_isCondition hcond
    obtain ⟨fs, hfs⟩ := hd
    obtain ⟨deps, hdeps⟩ := exists_dependencies? n.key hs
    unfold ConditionEntry.ofNode?
    rw [branches?, if_pos hread, ok_bind, hdetails, Node.fields?, hfs, hdeps]
    exact ⟨_, rfl⟩

private theorem isNamed_iff {c : ConditionEntry} {t : Text} (hid : c.id = .text t) :
    c.isNamed = true ↔ ∀ b ∈ c.routing.paths, b.label.isWritten = true := by
  have hwritten : c.id.isWritten = true := by rw [hid]; rfl
  simp only [ConditionEntry.isNamed, hwritten, List.all_eq_true, Bool.true_and]

private theorem isPlain_attached (h : IsPlain nodes edges) : IsPlain nodes (attached nodes edges) :=
  ⟨h.id, h.type, h.data, fun e he => h.source e (List.mem_filter.1 he).1⟩

/-- Each part of the document of a plain graph can be made, its conditions apart. -/
private theorem exists_assemble? {cs : List ConditionEntry} (m : Metadata) (h : IsPlain nodes edges)
    (hcs : (Document.conditionNodes nodes).mapM (ConditionEntry.ofNode? nodes edges) = .ok cs)
    (hnamed : ∀ c ∈ cs, c.isNamed = true) : ∃ d, Document.assemble? nodes edges m = .ok d := by
  have hall : (nodes.all fun n => n.type.isScalar) = true := List.all_eq_true.2 h.type
  have hnamed : cs.all ConditionEntry.isNamed = true := List.all_eq_true.2 hnamed
  obtain ⟨ts, hts⟩ : ∃ ts, (Document.rootNodes nodes edges).mapM TriggerEntry.ofNode? = .ok ts :=
    exists_mapM_iff.2 fun n hn => exists_triggerEntry (h.data n (List.mem_filter.1 hn).1)
  obtain ⟨as, has⟩ : ∃ as, (Document.actionNodes nodes).mapM (ActionEntry.ofNode? edges) = .ok as :=
    exists_mapM_iff.2 fun n hn =>
      exists_actionEntry_of_data (h.data n (List.mem_filter.1 hn).1) h.source
  obtain ⟨js, hjs⟩ := exists_joinPoints? edges h.type h.data
  unfold Document.assemble?
  simp only [hall, hts, has, hcs, hnamed, hjs, ok_bind, if_true]
  exact ⟨_, rfl⟩

/-- A plain graph compiles when nothing is wrong with its conditions. -/
theorem exists_document_iff (h : IsPlain nodes edges) :
    (∃ d, (compile nodes edges settings).result = .ok d) ↔
      ∀ n ∈ Document.conditionNodes nodes, n.isCondition = true ∧
        areReadable nodes (attached nodes edges) [] n = true ∧
        ∀ b ∈ branches nodes (attached nodes edges) [] n, b.label.isWritten = true := by
  have hp := isPlain_attached h
  have hnode {n : Node} (hn : n ∈ Document.conditionNodes nodes) : n ∈ nodes :=
    (List.mem_filter.1 hn).1
  -- what an entry says of its node's branches
  have hentry {n : Node} {c : ConditionEntry} (hn : n ∈ Document.conditionNodes nodes)
      (hc : ConditionEntry.ofNode? nodes (attached nodes edges) n = .ok c) :
      c.isNamed = true ↔ ∀ b ∈ branches nodes (attached nodes edges) [] n,
        b.label.isWritten = true := by
    obtain ⟨hid, -, hbs⟩ := of_conditionEntry hc
    obtain ⟨t, ht⟩ := h.id n (hnode hn)
    rw [isNamed_iff (hid.trans ht), branches?_eq_ok hbs]
  constructor
  · rintro ⟨d, hd⟩ n hn
    have hdoc := compiledFrom_of_compile hd
    obtain ⟨c, hmem, hc⟩ := exists_of_forall₂ hdoc.conditions.flip hn
    obtain ⟨hcond, hread⟩ :=
      (exists_conditionEntry_iff (h.data n (hnode hn)) hp.source).1 ⟨c, hc⟩
    exact ⟨hcond, hread, (hentry hn hc).1 (hdoc.named c hmem)⟩
  · intro hall
    obtain ⟨cs, hcs⟩ : ∃ cs, (Document.conditionNodes nodes).mapM
        (ConditionEntry.ofNode? nodes (attached nodes edges)) = .ok cs := by
      refine exists_mapM_iff.2 fun n hn => ?_
      obtain ⟨hcond, hread, -⟩ := hall n hn
      exact (exists_conditionEntry_iff (h.data n (hnode hn)) hp.source).2 ⟨hcond, hread⟩
    refine exists_assemble? _ hp hcs fun c hc => ?_
    obtain ⟨n, hn, hcn⟩ := exists_of_forall₂ (forall₂_of_mapM hcs) hc
    exact (hentry hn hcn).2 (hall n hn).2.2

end

section
variable {t : Text} {g : Graph}

/-- A graph that an import yields compiles exactly when every node that is taken for a condition is
one, and the labels that are read from there are scalars, and can be written at the condition
itself. -/
theorem exists_document_iff_of_load (h : Export.load t = .ok g) :
    let edges := attached g.nodes g.edges
    (∃ d, (compile g.nodes g.edges (.value (.map g.metadata))).result = .ok d) ↔
      ∀ n ∈ g.nodes, roleOf g.nodes n.key = .condition → n.isCondition = true ∧
        (∀ k, Reaches (conditionEdges g.nodes edges) n.key k →
          ∀ e ∈ outgoing edges k, e.branch.isScalar = true) ∧
        ∀ b ∈ branches g.nodes edges [] n, b.label.isWritten = true := by
  intro edges
  have hp := isPlain_of_load h
  have hread (n : Node) : areReadable g.nodes edges [] n = true ↔
      ∀ k, Reaches (conditionEdges g.nodes edges) n.key k →
        ∀ e ∈ outgoing edges k, e.branch.isScalar = true := by
    simpa only [unmarked_nil] using areReadable_iff hp.type (List.not_mem_nil (a := n.key))
  rw [exists_document_iff hp]
  change (∀ n ∈ Document.conditionNodes g.nodes, n.isCondition = true ∧
    areReadable g.nodes edges [] n = true ∧ _) ↔ _
  simp only [hread, Document.conditionNodes, List.mem_filter, decide_eq_true_eq, and_imp]
  rfl

/-- A condition, an action in its branch and a condition inside it, whose branch has no label. -/
def forkText : Text :=
  Text.joined "\n" ["nodes:", "- id: c", "  type: ifNode", "- id: a", "  type: actionNode",
    "- id: d", "  type: switchNode", "edges:", "- source: c", "  target: a", "  label: go",
    "- source: c", "  target: d", "  label: go", "- source: d", "  target: a"]

def forkGraph : Graph :=
  ⟨[⟨"c", "ifNode", some Node.origin, some []⟩, ⟨"a", "actionNode", some Node.origin, some []⟩,
      ⟨"d", "switchNode", some Node.origin, some []⟩],
    [⟨Edge.derivedId "c" "a", "c", "a", "go", .null, some []⟩,
      ⟨Edge.derivedId "c" "d", "c", "d", "go", .null, some []⟩,
      ⟨Edge.derivedId "d" "a", "d", "a", .null, .null, some []⟩],
    Metadata.default.toFields⟩

set_option maxRecDepth 10000 in
theorem exists_document_iff_of_load_fork : Export.load forkText = .ok forkGraph ∧
    ∃ d, (compile forkGraph.nodes forkGraph.edges (.value (.map forkGraph.metadata))).result =
      .ok d := by
  have hload : Export.load forkText = .ok forkGraph := by decide +kernel
  have hlabels : ∀ e ∈ attached forkGraph.nodes forkGraph.edges, e.branch.isScalar = true := by
    decide +kernel
  have hnodes : ∀ n ∈ forkGraph.nodes, roleOf forkGraph.nodes n.key = .condition →
      n.isCondition = true ∧
      ∀ b ∈ branches forkGraph.nodes (attached forkGraph.nodes forkGraph.edges) [] n,
        b.label.isWritten = true := by
    decide +kernel
  refine ⟨hload, (exists_document_iff_of_load hload).2 fun n hn hr => ?_⟩
  obtain ⟨hc, hwritten⟩ := hnodes n hn hr
  exact ⟨hc, fun k _ e he => hlabels e (mem_outgoing.1 he).1, hwritten⟩

/-- An action and a condition of one id. -/
def twoRolesText : Text :=
  Text.joined "\n" ["nodes:", "- id: a", "  type: actionNode", "- id: a", "  type: ifNode"]

def twoRoles : Graph :=
  ⟨[⟨"a", "actionNode", some Node.origin, some []⟩, ⟨"a", "ifNode", some Node.origin, some []⟩],
    [], Metadata.default.toFields⟩

/-- The action is taken for a condition, and has no condition's settings. -/
theorem not_compiles_of_load :
    ¬ ∀ (t : Text) (g : Graph), Export.load t = .ok g →
      ∃ d, (compile g.nodes g.edges (.value (.map g.metadata))).result = .ok d := by
  intro h
  have hload : Export.load twoRolesText = .ok twoRoles := by decide +kernel
  have hnone : (compile twoRoles.nodes twoRoles.edges
      (.value (.map twoRoles.metadata))).result.toOption.isNone = true := by decide +kernel
  obtain ⟨d, hd⟩ := h twoRolesText twoRoles hload
  simp [hd, Except.toOption] at hnone

end

end Flowchart
