import Flowchart.Proofs.FlowTree
import Flowchart.Proofs.Reader
import Flowchart.Export.Load
/-! An export that is written in JSON. -/
namespace Flowchart
open Export

section
variable {cs : List Char} {es : List (Scalar × Value)}

/-- A JSON text that holds an object is written by a tree with that value. If YAML shares the tree,
then the text is loaded as its value is checked. -/
theorem load_of_json (hread : Json.read? cs = some (.map es)) :
    (∃ w : Json.Whole, w.write = cs) ∧ ∀ w : Json.Whole, w.write = cs → w.value = .map es ∧
      (w.IsShared → load (Text.ofChars cs) = (check (.map es)).map Spec.toGraph) := by
  obtain ⟨w, hw, -⟩ := Json.read?_eq_some_iff.1 hread
  refine ⟨⟨w, hw⟩, ?_⟩
  rintro w rfl
  have hvalue : w.value = .map es := by
    rw [Json.read?_write] at hread
    exact Option.some.inj hread
  refine ⟨hvalue, fun hshared => ?_⟩
  rw [load, Json.read_write hshared hvalue, hvalue]

end

/-- A string in which every character stands for itself. -/
def Json.Pieces.ofString (s : String) : Json.Pieces :=
  s.toList.filterMap fun ch =>
    if h : ch ≠ '"' ∧ ch ≠ '\\' ∧ 0x20 ≤ ch.toNat then some (.plain ch h) else none

/-- An export with escapes, decimals with exponents, a repeated key, white space and a number as an
id. -/
def spacedText : String :=
  "\n\x7b\"nodes\" :\r\n[ \x7b\"id\": \"a\\u00e9\", \"data\":\x7b\"x\": -2.5e+3," ++
    "\"y\": [null,[],\x7b \x7d], \"x\":7.50E-1\x7d\x7d ,\x7b\"id\":10\x7d],\"edges\":[]\x7d "

def spacedTree : Json.Whole :=
  let key := Json.Pieces.ofString
  let loss : Json.Numeral := ⟨true, ⟨2, []⟩, some ⟨5, []⟩, some ⟨false, some .plus, ⟨3, []⟩⟩, nofun⟩
  let rate : Json.Numeral :=
    ⟨false, ⟨7, []⟩, some ⟨5, [0]⟩, some ⟨true, some .minus, ⟨1, []⟩⟩, nofun⟩
  let ten : Json.Numeral := ⟨false, ⟨1, [0]⟩, none, none, nofun⟩
  let accented : Json.Pieces := key "a" ++ [.unicode '0' '0' 'e' '9' 0xE9 rfl]
  let parts : Json.Items := .more [] .null [] (.more [] (.emptyArray []) []
    (.last [] (.emptyObject [.space]) []))
  let data : Json.Entries := .more [] (key "x") [] [.space] (.number loss) []
    (.more [] (key "y") [] [.space] (.array parts) [] (.last [.space] (key "x") [] [] (.number rate) []))
  let first : Json.Entries := .more [] (key "id") [] [.space] (.string accented) []
    (.last [.space] (key "data") [] [] (.object data) [])
  let second : Json.Entries := .last [] (key "id") [] [] (.number ten) []
  let nodes : Json.Items := .more [.space] (.object first) [.space] (.last [] (.object second) [])
  ⟨[.lineFeed], .object (.more [] (key "nodes") [.space] [.carriageReturn, .lineFeed] (.array nodes) []
    (.last [] (key "edges") [] [] (.emptyArray []) [])), [.space]⟩

def spacedGraph : Graph :=
  ⟨[⟨"aé", "default", some Node.origin, some [("x", .double (.ofRatio false 3 4)),
      ("y", .list [.null, .list [], .map []])]⟩,
    ⟨"10", "default", some Node.origin, some []⟩], [], Metadata.default.toFields⟩

theorem load_of_json_spaced : spacedTree.write = spacedText.toList ∧ spacedTree.IsShared ∧
    Json.read? spacedText.toList = some spacedTree.value ∧
      load (Text.ofChars spacedText.toList) = .ok spacedGraph := by
  have hwrite : spacedTree.write = spacedText.toList := by decide +kernel
  have hshared : spacedTree.IsShared := by decide +kernel
  have hread : Json.read? spacedText.toList = some spacedTree.value := by decide +kernel
  refine ⟨hwrite, hshared, hread, ?_⟩
  obtain ⟨-, hload⟩ := load_of_json hread
  rw [(hload spacedTree hwrite).2 hshared]
  decide +kernel

/-- The exponent has neither a point before it nor a sign. -/
def exponentText : List Char :=
  "\x7b\"nodes\": [\x7b\"id\": \"a\", \"data\": \x7b\"x\": 1e5\x7d\x7d]\x7d".toList

/-- Such a number is loaded as a text. -/
theorem not_load_of_json : ¬ ∀ (cs : List Char) (es : List (Scalar × Value)),
    Json.read? cs = some (.map es) →
      load (Text.ofChars cs) = (check (.map es)).map Spec.toGraph := by
  intro h
  have hread : Json.read? exponentText = some (.map [("nodes",
      .list [.map [("id", "a"), ("data", .map [("x", .double (.ofInt 100000))])]])]) := by
    decide +kernel
  exact absurd (h _ _ hread) (by decide +kernel)

end Flowchart
