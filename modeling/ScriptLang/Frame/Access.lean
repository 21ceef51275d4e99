import ScriptLang.Diagnostic
import ScriptLang.Frame

/-!
# Access to frames by tokens

The same four accesses as in `Frames`, with the fault that a name is not bound where it is looked for.
-/

namespace ScriptLang

/-- The fault that a name is not bound. -/
def Report.undefined (name : Token) : Report RuntimeFault := ⟨name, .undefinedVariable name.lexeme⟩

namespace Frames

variable {α : Type}

/-- What was found for a name, or the fault that nothing was. -/
def orUndefined {β : Type} (name : Token) : Option β → Except (Report RuntimeFault) β
  | some b => .ok b
  | none => .error (.undefined name)

/-- Reads a name, searched from a frame outwards. -/
def read (fs : Frames α) (e : FrameRef) (name : Token) : Except (Report RuntimeFault) α :=
  orUndefined name (fs.find? e name.lexeme)

/-- Writes a name where the search from a frame outwards finds it. -/
def write (fs : Frames α) (e : FrameRef) (name : Token) (a : α) : Except (Report RuntimeFault) (Frames α) :=
  orUndefined name (fs.assign? e name.lexeme a)

/-- Reads a name in the frame so many links outwards. -/
def readAt (fs : Frames α) (e : FrameRef) (distance : Nat) (name : Token) : Except (Report RuntimeFault) α :=
  orUndefined name (fs.findAt? e distance name.lexeme)

/-- Writes a name in the frame so many links outwards. -/
def writeAt (fs : Frames α) (e : FrameRef) (distance : Nat) (name : Token) (a : α) :
    Except (Report RuntimeFault) (Frames α) :=
  orUndefined name (fs.assignAt? e distance name.lexeme a)

end Frames

end ScriptLang
