import ArithWatch.IR.Function

namespace ArithWatch

/-!
# Listings

Functions and modules as text: one instruction a line, blocks under their names with an empty line
between two of them, attachments behind an exclamation mark.  A listing faults where it needs the
name of a block that does not exist.
-/

namespace Function

/-- The name of a block. -/
def label (f : Function) (b : BlockId) : Except Fault String := do return (← f.block b).name

/-- An operand behind its type; an unknown type is a question mark. -/
def typedText (f : Function) (op : Operand) : String :=
  (match f.operandType? op with
    | some ty => ty.text
    | none => "<?>") ++ " " ++ op.text

/-- A location as it stands behind an instruction. -/
def locationSuffix : Option Location → String
  | none => ""
  | some l => ", !dbg " ++ l.text

/-- The flags of a binary operation. -/
def flagsText (flags : WrapFlags) : String :=
  (if flags.contains .nuw then " nuw" else "") ++ (if flags.contains .nsw then " nsw" else "")

/-- One input of a phi. -/
def incomingText (f : Function) (input : BlockId × Operand) : Except Fault String := do
  return "[ " ++ input.2.text ++ ", %" ++ (← f.label input.1) ++ " ]"

/-- What an instruction with the given result does. -/
def kindText (f : Function) (result : ValueId) : InstKind → Except Fault String
  | .binary op lhs rhs flags =>
    .ok (op.mnemonic ++ flagsText flags ++ " " ++ f.typedText lhs ++ ", " ++ rhs.text)
  | .icmp pred lhs rhs =>
    .ok ("icmp " ++ pred.mnemonic ++ " " ++ f.typedText lhs ++ ", " ++ rhs.text)
  | .fcmp pred lhs rhs =>
    .ok ("fcmp " ++ pred.mnemonic ++ " " ++ f.typedText lhs ++ ", " ++ rhs.text)
  | .phi incoming => do
    let ty := match f.valueType? result with
      | some ty => ty.text
      | none => "<?>"
    return "phi " ++ ty ++ " " ++ ", ".intercalate (← incoming.mapM f.incomingText)

/-- The line of an instruction. -/
def instText (f : Function) (i : Inst) : Except Fault String := do
  return "  " ++ i.result.text ++ " = " ++ (← f.kindText i.result i.kind)
    ++ locationSuffix i.location ++ "\n"

/-- How control leaves a block. -/
def exitText (f : Function) : Exit → Except Fault String
  | .br target => return "br label %" ++ (← f.label target)
  | .condBr cond thenTarget elseTarget => do
    return "br " ++ f.typedText cond ++ ", label %" ++ (← f.label thenTarget)
      ++ ", label %" ++ (← f.label elseTarget)
  | .ret (some v) => .ok ("ret " ++ f.typedText v)
  | .ret none => .ok "ret void"
  | .unreachable => .ok "unreachable"

/-- The texts attached to a terminator. -/
def metadataText (m : Metadata) : String :=
  String.join (m.entries.map fun (key, value) => ", !" ++ key ++ " !\"" ++ value ++ "\"")

/-- The line of a terminator. -/
def terminatorText (f : Function) : Option Terminator → Except Fault String
  | none => .ok "  ; <no terminator>\n"
  | some t => do
    return "  " ++ (← f.exitText t.exit) ++ metadataText t.metadata
      ++ locationSuffix t.location ++ "\n"

/-- The lines of a block. -/
def blockText (f : Function) (b : Block) : Except Fault String := do
  let insts ← b.insts.mapM f.instText
  return b.name ++ ":\n" ++ String.join insts ++ (← f.terminatorText b.term)

/-- The listing of a function. -/
def listing (f : Function) : Except Fault String := do
  let returned := match f.returnType with
    | some ty => ty.text
    | none => "void"
  let params := f.params.map fun v => f.typedText (.value v)
  let blocks ← (← f.blocksInLayout).mapM f.blockText
  return "define " ++ returned ++ " @" ++ f.name ++ "(" ++ ", ".intercalate params ++ ") \x7b\n"
    ++ "\n".intercalate blocks ++ "\x7d\n"

end Function

/-- The listing of a module. -/
def Module.listing (m : Module) : Except Fault String := do
  let functions ← m.functions.mapM (·.listing)
  return "; module " ++ m.name ++ "\n" ++ String.join (functions.map ("\n" ++ ·))

end ArithWatch
