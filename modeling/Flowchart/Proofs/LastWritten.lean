import Flowchart.Editor.Session
import Mathlib.Data.List.Basic
import Mathlib.Data.List.Induction
/-! What the stores of a session hold. Each part of a store is what the last command that wrote it
left there, whatever became of compiling and whatever was done to other stores. A copied branch is
cut out of the graph that the store had at the time, and stays as it was cut out. -/
namespace Flowchart

namespace Command

/-- The nodes that a command gives a store; an edit gives those after it. -/
def nodes? : Command → Option (List Node)
  | setNodes ns => some ns
  | edit ev ns _ _ _ => some (ev.nodesAfter ns)
  | _ => none

/-- The edges that a command gives a store. -/
def edges? : Command → Option (List Edge)
  | setEdges es => some es
  | edit _ _ es _ _ => some es
  | _ => none

/-- What a command leaves on the clipboard of a store with these nodes and edges. -/
def clipboard? (nodes : List Node) (edges : List Edge) : Command → Option Clipboard
  | setCopied ns es => some ⟨ns, es, true⟩
  | resetClipboard => some ⟨[], [], false⟩
  | copyBranch k => some ⟨(subtree nodes edges k).nodes, (subtree nodes edges k).edges, true⟩
  | _ => none

/-- The command writes the clipboard. -/
def isCopying : Command → Bool
  | setCopied .. | resetClipboard | copyBranch _ => true
  | setNodes _ | setEdges _ | edit .. => false

/-- The nodes that the last of the commands gives that gives any. -/
def lastNodes (cs : List Command) : List Node := (cs.filterMap nodes?).getLast?.getD []

/-- The edges that the last of the commands gives that gives any. -/
def lastEdges (cs : List Command) : List Edge := (cs.filterMap edges?).getLast?.getD []

section
variable {s : Store} {c : Command} {cs : List Command}

private theorem nodes_apply : (c.apply s).nodes = c.nodes?.getD s.nodes := by cases c <;> rfl

private theorem edges_apply : (c.apply s).edges = c.edges?.getD s.edges := by cases c <;> rfl

private theorem clipboard_apply :
    (c.apply s).clipboard = (c.clipboard? s.nodes s.edges).getD s.clipboard := by cases c <;> rfl

private theorem clipboard?_of_isCopying (h : c.isCopying = true) (ns : List Node) (es : List Edge) :
    ∃ clipboard, c.clipboard? ns es = some clipboard := by
  cases c <;> first | exact ⟨_, rfl⟩ | cases h

private theorem clipboard?_eq_none (h : c.isCopying = false) (ns : List Node) (es : List Edge) :
    c.clipboard? ns es = none := by
  cases c <;> first | rfl | cases h

private theorem last_concat {α : Type} (f : Command → Option α) (cs : List Command) (c : Command)
    (a : α) : ((cs ++ [c]).filterMap f).getLast?.getD a =
      (f c).getD ((cs.filterMap f).getLast?.getD a) := by
  rw [List.filterMap_append]
  cases h : f c <;> simp [h]

private theorem nodes_foldl : (cs.foldl apply .empty).nodes = lastNodes cs := by
  induction cs using List.reverseRecOn with
  | nil => rfl
  | append_singleton cs c ih => rw [List.foldl_concat, nodes_apply, ih, lastNodes, lastNodes, last_concat]

private theorem edges_foldl : (cs.foldl apply .empty).edges = lastEdges cs := by
  induction cs using List.reverseRecOn with
  | nil => rfl
  | append_singleton cs c ih => rw [List.foldl_concat, edges_apply, ih, lastEdges, lastEdges, last_concat]

/-- The clipboard is as the last command that wrote it left it, with the graph of that time. -/
private theorem clipboard_foldl :
    (∀ c ∈ cs, c.isCopying = false) ∧ (cs.foldl apply .empty).clipboard = ⟨[], [], false⟩ ∨
    ∃ before c after, cs = before ++ c :: after ∧ c.isCopying = true ∧
      (∀ d ∈ after, d.isCopying = false) ∧
      c.clipboard? (lastNodes before) (lastEdges before) = some (cs.foldl apply .empty).clipboard := by
  induction cs using List.reverseRecOn with
  | nil => exact .inl ⟨List.forall_mem_nil _, rfl⟩
  | append_singleton cs c ih =>
    rw [List.foldl_concat, clipboard_apply, nodes_foldl, edges_foldl]
    cases hc : c.isCopying with
    | true =>
      obtain ⟨clipboard, hclip⟩ := clipboard?_of_isCopying hc (lastNodes cs) (lastEdges cs)
      exact .inr ⟨cs, c, [], rfl, hc, List.forall_mem_nil _, by rw [hclip, Option.getD_some]⟩
    | false =>
      rw [clipboard?_eq_none hc, Option.getD_none]
      rcases ih with ⟨hnone, hempty⟩ | ⟨before, d, after, hcs, hd, hafter, hclip⟩
      · refine .inl ⟨fun d hd => ?_, hempty⟩
        exact (List.mem_append.1 hd).elim (hnone d) fun hd => List.mem_singleton.1 hd ▸ hc
      · refine .inr ⟨before, d, after ++ [c], by simp [hcs], hd, fun e he => ?_, hclip⟩
        exact (List.mem_append.1 he).elim (hafter e) fun he => List.mem_singleton.1 he ▸ hc

end

end Command

namespace Session

/-- The commands that are given to one store. -/
def commandsOn (name : Text) (cs : List (Text × Command)) : List Command :=
  (cs.filter fun c => c.1 = name).map (·.2)

/-- A store is changed by its own commands alone. -/
theorem run_apply (s : Session) (cs : List (Text × Command)) (name : Text) :
    s.run cs name = (commandsOn name cs).foldl Command.apply (s name) := by
  unfold run commandsOn
  induction cs generalizing s with
  | nil => rfl
  | cons c cs ih =>
    rw [List.foldl_cons, ih]
    by_cases h : c.1 = name
    · subst h
      simp [apply]
    · simp [apply, h, Ne.symm h]

/-- After any commands on any stores, the nodes and the edges of a store are those of the last
command on it that gave any. Its clipboard is empty if no command on it wrote the clipboard; else it
is what the last one that did left there, and a branch is cut out of the graph that the commands on
the store before that one had given. -/
theorem holds_last_written (cs : List (Text × Command)) (name : Text) :
    let store := start.run cs name
    let own := commandsOn name cs
    store.nodes = Command.lastNodes own ∧ store.edges = Command.lastEdges own ∧
      ((∀ c ∈ own, c.isCopying = false) ∧ store.clipboard = ⟨[], [], false⟩ ∨
        ∃ before c after, own = before ++ c :: after ∧ c.isCopying = true ∧
          (∀ d ∈ after, d.isCopying = false) ∧
          c.clipboard? (Command.lastNodes before) (Command.lastEdges before) =
            some store.clipboard) := by
  intro store own
  have hstore : store = own.foldl Command.apply .empty := run_apply start cs name
  rw [hstore]
  exact ⟨Command.nodes_foldl, Command.edges_foldl, Command.clipboard_foldl⟩

/-- An edit that gives an id to a condition besides an action, which does not compile. -/
def clash : Command :=
  .edit (.nodeAdded ⟨"a", "ifNode", some [], some []⟩) [⟨"a", "actionNode", some [], some []⟩]
    [⟨"1", "a", "a", .null, .null, some []⟩] (.value .null) "noon"

-- the graph that does not compile is kept, and a branch is copied from it before it is replaced
example : (clash.call .empty).2.map (fun out => out.result.toOption.isSome) = some false ∧
    (start.run [("main", clash), ("other", .setNodes []), ("main", .copyBranch (.text "a")),
      ("main", .setNodes []), ("other", .resetClipboard)]) "main" =
    ⟨[], [⟨"1", "a", "a", .null, .null, some []⟩],
      ⟨[⟨"a", "actionNode", some [], some []⟩], [⟨"1", "a", "a", .null, .null, some []⟩], true⟩⟩ := by
  decide +kernel

end Session

end Flowchart
