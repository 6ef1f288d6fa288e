import WhileStack.Machine.Program
import WhileStack.Yaml.Writer

/-! A program's listing as a structured document: its methods with their frames and code. -/
namespace WhileStack.Machine

def Local.outline (l : Local) : Yaml.Tree :=
  .map [("slot", .number l.slot), ("name", .text l.name), ("type", .text l.ty.text)]

/-- A mark appears only where it is set. -/
def markEntry (name : String) (isSet : Bool) : List (String × Yaml.Tree) :=
  if isSet then [(name, .flag true)] else []

def Method.outline (m : Method) : Yaml.Tree :=
  .map <|
    [("name", .text m.name), ("descriptor", .text m.sig.descriptor)] ++
    markEntry "static" m.sig.isStatic ++ markEntry "entryPoint" m.isEntry ++
    [("maxStack", .number m.maxStack), ("maxLocals", .number m.maxLocals),
      ("locals", .seq (m.locals.map Local.outline)), ("code", .seq (m.code.toList.map fun i => .text i.text))]

def Program.outline (p : Program) : Yaml.Tree :=
  .map [("class", .text p.name), ("version", .text p.version.classText), ("methods", .seq (p.methods.map Method.outline))]

end WhileStack.Machine
