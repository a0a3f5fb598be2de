import Flowchart.Fault
/-! Mappings given as mappings or as sequences of pairs. -/
namespace Flowchart.Value

/-- The members of a value that can be walked through; those of a mapping are its keys, those of
a text its characters. -/
def members? : Value → Option (List Value)
  | list xs => some xs
  | tuple xs => some xs
  | set xs => some (xs.map scalar)
  | map es => some (es.map fun e => scalar e.1)
  | text t => some (t.codes.map fun c => text ⟨[c]⟩)
  | scalar (.bytes os) => some (os.map fun (o : Nat) => int o)
  | scalar _ | endless => none

/-- A key and its value. -/
def pair? (v : Value) : Except Fault (Scalar × Value) :=
  match v.members? with
  | none => .error .notPairs
  | some [k, x] =>
    match k.scalar? with
    | some s => .ok (s, x)
    | none => .error .notKey
  | some _ => .error .notTwo

/-- A mapping is taken as it is; a sequence of pairs is entered one by one. -/
def fields? : Value → Except Fault Fields
  | map es => .ok es
  | v =>
    match v.members? with
    | none => .error .notPairs
    | some xs => (xs.mapM pair?).map Table.ofEntries

@[simp] theorem fields?_map (es : Fields) : (map es).fields? = .ok es := rfl

end Flowchart.Value
