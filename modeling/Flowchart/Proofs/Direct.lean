import Flowchart.Proofs.Listing
import Mathlib.Data.List.Nodup
/-! Which edge says how an action of a branch is run. A branch keeps of each id what it lists first,
so the first of its edges that leads to the action decides. If that edge ends at the action, it says
so itself; else the last edge on the way from its end does. -/
namespace Flowchart

/-- The action waits for `p` alone, and is run as the edge says. -/
structure ActionRef.Takes (r : ActionRef) (e : Edge) (p : Scalar) : Prop where
  waits : r.dependsOn = [p]
  order : r.order = e.fields.valueOr "order" (.int 0)
  parallel : r.parallel = e.fields.isOn "parallel"

section
variable {nodes : List Node} {edges own before after earlier later : List Edge}
  {visited : List Key} {c n t : Node} {e f : Edge} {source p : Scalar} {k : Key}
  {label : Option Key} {rs listed : List ActionRef} {r : ActionRef} {b : Branch}

theorem takes_ofEdge : (ActionRef.ofEdge n e p).Takes e p := ⟨rfl, rfl, rfl⟩

/-- Under an id stands the first action with it, whatever comes later. -/
private theorem find?_foldl_addTo : (rs.foldl ActionRef.addTo listed).find? (fun r => r.key = k) =
    (listed ++ rs).find? fun r => r.key = k := by
  induction rs generalizing listed with
  | nil => simp
  | cons r rs ih =>
    rw [List.foldl_cons, ih, ActionRef.addTo]
    split
    · next hr =>
      obtain ⟨s, hs, hk⟩ := List.mem_map.1 hr
      rw [List.find?_append, List.find?_append]
      by_cases hrk : r.key = k
      · -- `s` stands before `r` under the same id
        have hfound : (listed.find? fun r => r.key = k).isSome :=
          List.find?_isSome.2 ⟨s, hs, by simpa using hk.trans hrk⟩
        rw [Option.or_of_isSome hfound, Option.or_of_isSome hfound]
      · rw [List.find?_cons_of_neg (by simpa using hrk)]
    · rw [List.append_assoc, List.singleton_append]

/-- What a branch lists under an id comes from the first of its edges that leads there. -/
theorem find?_actions_branchOf (h : NoAction nodes visited)
    (hb : branchOf nodes edges visited source (before ++ e :: after) = some b)
    (hbefore : ∀ f ∈ before, ¬ LeadsAlong nodes edges f k) (he : LeadsAlong nodes edges e k) :
    b.actions.find? (fun r => r.key = k) =
      (actionsAlong nodes edges visited source e).find? fun r => r.key = k := by
  have hfound (f : Edge) : LeadsAlong nodes edges f k ↔
      ((actionsAlong nodes edges visited source f).find? fun r => r.key = k).isSome := by
    rw [leadsAlong_iff, ← @mem_keys_actionsAlong nodes edges visited f source k h, List.find?_isSome]
    simp
  have hnone : before.findSome? (fun f =>
      (actionsAlong nodes edges visited source f).find? fun r => r.key = k) = none :=
    List.findSome?_eq_none_iff.2 fun f hf => by simpa [hfound] using hbefore f hf
  obtain ⟨first, -, rfl⟩ := Option.map_eq_some_iff.1 hb
  obtain ⟨r, hr⟩ := Option.isSome_iff_exists.1 ((hfound e).1 he)
  simp only [ActionRef.onceEach, find?_foldl_addTo, List.nil_append, List.find?_flatMap,
    List.findSome?_append, hnone, List.findSome?_cons, hr, Option.none_or]

/-- What follows the end of an edge waits for an action to which the edge leads, and is run as an
edge from there says. -/
theorem exists_takes_of_mem_following (h : NoAction nodes visited) (hn : actionAt nodes e = some n)
    (hr : r ∈ following nodes edges visited n.id) :
    ∃ p, LeadsAlong nodes edges e p.key ∧
      ∃ g ∈ edges, g.tail = p.key ∧ g.head = r.key ∧ r.Takes g p := by
  obtain ⟨g, hg, m, p, hm, htail, rfl⟩ := comesAlong_following hr
  refine ⟨p, leadsAlong_iff.2 ⟨⟨n, hn⟩, ?_⟩, g, hg, htail, (head_of_actionAt hm).symm, takes_ofEdge⟩
  have hk : n.id.key = e.head := head_of_actionAt hn
  have hground : Grounded [n.id.key] (following nodes edges visited n.id) :=
    grounded_following List.mem_cons_self
  obtain ⟨before, after, hsplit⟩ := List.append_of_mem hr
  rcases (hsplit ▸ hground).split p List.mem_cons_self with hp | hp
  · rw [List.mem_singleton.1 hp, hk]
    exact .refl
  · have hp : p.key ∈ (following nodes edges visited n.id).map ActionRef.key := by
      rw [hsplit, List.map_append]
      exact List.mem_append_left _ hp
    obtain ⟨-, -, hp⟩ := mem_keys_following.1 hp
    rwa [actionEdges_of_noAction h, hk] at hp

/-- Where edges lead along actions is an action. -/
private theorem isAction_of_leadsAlong (h : LeadsAlong nodes edges e k) : IsAction nodes k := by
  obtain ⟨ks, hacts, -, rfl⟩ := h
  exact hacts _ (List.getLast_mem _)

private theorem not_isAction_of_noAction (h : NoAction nodes visited) (hk : k ∈ visited) :
    ¬ IsAction nodes k := by
  rintro ⟨n, hn, hna⟩
  simp [h k hk n hn] at hna

private theorem find?_key_of_mem (hb : branchOf nodes edges visited source own = some b)
    (hr : r ∈ b.actions) : b.actions.find? (fun s => s.key = r.key) = some r := by
  have hfound : (b.actions.find? fun s => s.key = r.key).isSome :=
    List.find?_isSome.2 ⟨r, hr, by simp⟩
  obtain ⟨s, hs⟩ := Option.isSome_iff_exists.1 hfound
  have hkey : s.key = r.key := by simpa using List.find?_some hs
  have hsr : s = r :=
    List.inj_on_of_nodup_map (nodup_keys_branchOf hb) (List.mem_of_find?_eq_some hs) hr hkey
  rw [hs, hsr]

/-- The first edge of a branch that leads to an action gives its entry: the edge itself when it ends
there, else a search from its end. -/
theorem entry_of_leadsAlong (h : NoAction nodes visited)
    (hb : branchOf nodes edges visited source (before ++ e :: after) = some b)
    (hbefore : ∀ f ∈ before, ¬ LeadsAlong nodes edges f r.key)
    (hlead : LeadsAlong nodes edges e r.key) (hr : r ∈ b.actions) :
    ∃ n, actionAt nodes e = some n ∧ (e.head = r.key → r.Takes e source) ∧
      (e.head ≠ r.key → r ∈ following nodes edges visited n.id) := by
  have hfind := find?_key_of_mem hb hr
  obtain ⟨n, hn⟩ := (leadsAlong_iff.1 hlead).1
  have hk : n.key = e.head := head_of_actionAt hn
  rw [find?_actions_branchOf h hb hbefore hlead, actionsAlong, hn] at hfind
  refine ⟨n, hn, fun he => ?_, fun he => ?_⟩
  · rw [List.find?_cons_of_pos (by simpa [hk] using he)] at hfind
    exact Option.some.inj hfind ▸ takes_ofEdge
  · rw [List.find?_cons_of_neg (by simpa [hk] using he)] at hfind
    exact List.mem_of_find?_eq_some hfind

/-- An edge that ends at an action says how the action is run exactly when no edge before it leads
there along others. -/
theorem takes_iff_not_leadsAlong (h : NoAction nodes visited) (hs : source.key ∈ visited)
    (hb : branchOf nodes edges visited source (before ++ e :: after) = some b)
    (hbefore : ∀ f ∈ before, f.head ≠ r.key) (hlead : LeadsAlong nodes edges e r.key)
    (hr : r ∈ b.actions) (he : e.head = r.key) :
    r.Takes e source ↔ ∀ f ∈ before, ¬ LeadsAlong nodes edges f r.key := by
  constructor
  · intro htakes f hf hleads
    have hsome : ∃ f ∈ before, LeadsAlong nodes edges f r.key := ⟨f, hf, hleads⟩
    obtain ⟨earlier, f, later, rfl, hearlier, hf⟩ := exists_first hsome
    rw [List.append_assoc] at hb
    obtain ⟨n, hn, -, hfollows⟩ := entry_of_leadsAlong h hb hearlier hf hr
    obtain ⟨p, hp, g, -, -, -, htakes'⟩ :=
      exists_takes_of_mem_following h hn (hfollows (hbefore f (by simp)))
    have hps : p = source := List.singleton_inj.1 (htakes'.waits.symm.trans htakes.waits)
    exact not_isAction_of_noAction h hs (hps ▸ isAction_of_leadsAlong hp)
  · intro hnone
    obtain ⟨-, -, htakes, -⟩ := entry_of_leadsAlong h hb hnone hlead hr
    exact htakes he

/-- An edge that alone of its branch ends at an action says how the action is run, unless an edge
before it leads there along actions. Then the entry is what a search from the end of the first such
edge gives: the action waits for another action, and an edge from there says how it is run. -/
theorem takes_direct_iff (hl : lookup nodes c.key = some c) (hc : c.isCondition = true)
    (ht : lookup nodes t.key = some t) (hta : t.isCondition = false)
    (hown : branchEdges edges c.key label = before ++ e :: after) (he : e.head = t.key)
    (hone : ∀ f ∈ before ++ after, f.head ≠ t.key) :
    (∀ bs, branches? nodes edges [] c = .ok bs →
      (∃ b ∈ bs, b.label.key? = label ∧ t.id ∈ b.actions.map ActionRef.node) ∧
      ∀ b ∈ bs, b.label.key? = label → ∀ r ∈ b.actions, r.node = t.id →
        (r.Takes e c.id ↔ ∀ f ∈ before, ¬ LeadsAlong nodes edges f t.key) ∧
        ∀ earlier f later, before = earlier ++ f :: later →
          (∀ g ∈ earlier, ¬ LeadsAlong nodes edges g t.key) → LeadsAlong nodes edges f t.key →
          ∃ n, actionAt nodes f = some n ∧ r ∈ following nodes edges [c.key] n.id ∧
            ∃ p, LeadsAlong nodes edges f p.key ∧
              ∃ g ∈ edges, g.tail = p.key ∧ g.head = t.key ∧ r.Takes g p) ∧
    ((∀ n ∈ nodes, n.type.isScalar = true) → (∀ e ∈ edges, e.branch.isScalar = true) →
      ∃ bs, branches? nodes edges [] c = .ok bs) := by
  refine ⟨fun bs hbs => ?_, fun ht hlabels => ⟨_, if_pos (areReadable_of_isScalar ht hlabels)⟩⟩
  rw [← branches?_eq_ok hbs]
  have hno : NoAction nodes [c.key] := noAction_of_isCondition hl hc
  have hmem : e ∈ branchEdges edges c.key label := by simp [hown]
  have hlead : LeadsAlong nodes edges e t.key :=
    ⟨[], by simpa [he] using ⟨t, ht, hta⟩, .singleton _, he⟩
  refine ⟨?_, fun b hb hlabel r hr hnode => ?_⟩
  · obtain ⟨hout, rfl⟩ := mem_branchEdges.1 hmem
    obtain ⟨b, hb⟩ := exists_branchOf nodes edges [c.key] c.id hmem
    have hb' : b ∈ branches nodes edges [] c := (mem_branches List.not_mem_nil).2 ⟨e, hout, hb⟩
    have hlabel := key?_label hb
    refine ⟨b, hb', hlabel, ((tells_of_mem_branches hno hb').lists t.id).2 ?_⟩
    exact ⟨t, rfl, ht, hta, e, hlabel ▸ hmem, hlead⟩
  · have hb := branchOf_of_mem hb
    have hrk : r.key = t.key := congrArg Scalar.key hnode
    rw [hlabel, hown] at hb
    rw [← hrk] at he hone hlead ⊢
    have hbefore : ∀ f ∈ before, f.head ≠ r.key := fun f hf => hone f (List.mem_append_left _ hf)
    refine ⟨takes_iff_not_leadsAlong hno List.mem_cons_self hb hbefore hlead hr he, ?_⟩
    rintro earlier f later rfl hearlier hf
    rw [List.append_assoc] at hb
    obtain ⟨n, hn, -, hfollows⟩ := entry_of_leadsAlong hno hb hearlier hf hr
    have hfollows := hfollows (hbefore f (by simp))
    exact ⟨n, hn, hfollows, exists_takes_of_mem_following hno hn hfollows⟩

/-- Two branches with edges to `a` and to `t`, and an edge from `a` to `t`. One of them has the edge
to `a` first, the other the edge to `t`. -/
def detourNodes : List Node :=
  [⟨"c", "ifNode", some [], some []⟩, ⟨"a", "actionNode", some [], some []⟩,
    ⟨"t", "actionNode", some [], some []⟩]

def detourEdges : List Edge :=
  [⟨"1", "c", "a", "go", .null, some []⟩,
    ⟨"2", "c", "t", "go", .null, some [("order", .int 5), ("parallel", .bool false)]⟩,
    ⟨"3", "a", "t", .null, .null, some []⟩,
    ⟨"4", "c", "t", "now", .null, some [("order", .int 2)]⟩,
    ⟨"5", "c", "a", "now", .null, some []⟩]

theorem takes_direct_iff_detour :
    ∃ bs, branches? detourNodes detourEdges [] ⟨"c", "ifNode", some [], some []⟩ = .ok bs ∧
      (∃ b ∈ bs, b.label.key? = some (.text "go") ∧ ∃ r ∈ b.actions, r.node = "t" ∧
        r ∈ following detourNodes detourEdges [.text "c"] "a") ∧
      ∃ b ∈ bs, b.label.key? = some (.text "now") ∧ ∃ r ∈ b.actions, r.node = "t" ∧
        r.Takes ⟨"4", "c", "t", "now", .null, some [("order", .int 2)]⟩ "c" := by
  obtain ⟨hgo, htotal⟩ := @takes_direct_iff detourNodes detourEdges
    [⟨"1", "c", "a", "go", .null, some []⟩] [] ⟨"c", "ifNode", some [], some []⟩
    ⟨"t", "actionNode", some [], some []⟩
    ⟨"2", "c", "t", "go", .null, some [("order", .int 5), ("parallel", .bool false)]⟩
    (some (.text "go")) (by decide) (by decide) (by decide) (by decide) (by decide +kernel)
    (by decide) (by decide)
  obtain ⟨hnow, -⟩ := @takes_direct_iff detourNodes detourEdges []
    [⟨"5", "c", "a", "now", .null, some []⟩] ⟨"c", "ifNode", some [], some []⟩
    ⟨"t", "actionNode", some [], some []⟩
    ⟨"4", "c", "t", "now", .null, some [("order", .int 2)]⟩
    (some (.text "now")) (by decide) (by decide) (by decide) (by decide) (by decide +kernel)
    (by decide) (by decide)
  obtain ⟨bs, hbs⟩ := htotal (by decide) (by decide)
  refine ⟨bs, hbs, ?_, ?_⟩
  · obtain ⟨⟨b, hb, hlabel, hid⟩, hentry⟩ := hgo bs hbs
    obtain ⟨r, hr, hnode⟩ := List.mem_map.1 hid
    have hlead : LeadsAlong detourNodes detourEdges ⟨"1", "c", "a", "go", .null, some []⟩
        (.text "t") := by
      refine ⟨[.text "t"], ?_, ?_, rfl⟩
      · simp only [List.forall_mem_cons]
        exact ⟨⟨_, rfl, rfl⟩, ⟨_, rfl, rfl⟩, List.forall_mem_nil _⟩
      · exact .cons_cons ⟨⟨"3", "a", "t", .null, .null, some []⟩, by decide, rfl, rfl⟩ (.singleton _)
    obtain ⟨n, hn, hfollows, -⟩ := (hentry b hb hlabel r hr hnode).2 [] _ [] rfl
      (List.forall_mem_nil _) hlead
    obtain rfl : _ = n := Option.some.inj hn
    exact ⟨b, hb, hlabel, r, hr, hnode, hfollows⟩
  · obtain ⟨⟨b, hb, hlabel, hid⟩, hentry⟩ := hnow bs hbs
    obtain ⟨r, hr, hnode⟩ := List.mem_map.1 hid
    exact ⟨b, hb, hlabel, r, hr, hnode,
      (hentry b hb hlabel r hr hnode).1.2 (List.forall_mem_nil _)⟩

/-- An edge does not always say how the action at its end is run, even where it alone of its branch
ends there. -/
theorem not_takes_direct :
    ¬ ∀ (nodes : List Node) (edges : List Edge) (c t : Node) (e : Edge) (label : Option Key)
      (before after : List Edge) (bs : List Branch), lookup nodes c.key = some c →
      c.isCondition = true → lookup nodes t.key = some t → t.isCondition = false →
      branchEdges edges c.key label = before ++ e :: after → e.head = t.key →
      (∀ f ∈ before ++ after, f.head ≠ t.key) → branches? nodes edges [] c = .ok bs →
      ∃ b ∈ bs, b.label.key? = label ∧ ∃ r ∈ b.actions, r.node = t.id ∧ r.Takes e c.id := by
  intro h
  let c : Node := ⟨"c", "ifNode", some [], some []⟩
  have hread : areReadable detourNodes detourEdges [] c = true := by decide +kernel
  have hwaits : ∀ b ∈ branches detourNodes detourEdges [] c, b.label.key? = some (.text "go") →
      ∀ r ∈ b.actions, r.node = "t" → r.dependsOn = ["a"] := by decide +kernel
  obtain ⟨b, hb, hlabel, r, hr, hnode, htakes⟩ := h detourNodes detourEdges c
    ⟨"t", "actionNode", some [], some []⟩
    ⟨"2", "c", "t", "go", .null, some [("order", .int 5), ("parallel", .bool false)]⟩
    (some (.text "go")) [⟨"1", "c", "a", "go", .null, some []⟩] []
    (branches detourNodes detourEdges [] c) (by decide) (by decide) (by decide) (by decide)
    (by decide +kernel) (by decide) (by decide) (if_pos hread)
  have hnot : (["a"] : List Scalar) ≠ ["c"] := by decide
  exact hnot ((hwaits b hb hlabel r hr hnode).symm.trans htakes.waits)

end

end Flowchart
