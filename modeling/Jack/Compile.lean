import Jack.Codegen.Class

/-!
# Compiling a source text

From the text of a class to the text of its VM code.
-/

namespace Jack

/-- Why a source does not become VM code: its characters, its tokens, or the files and streams
around it. -/
inductive Error where
  | scan (e : ScanError)
  | compile (e : CompileError)
  | system (fault : Fault)
deriving DecidableEq, Repr

/-- The wording of an error, which says first what it is about. -/
def Error.message : Error → String
  | scan e => "Lexer error: " ++ e.message
  | compile e => "Compile error: " ++ e.message
  | system fault => "IO error: " ++ fault.message

/-- Compiles a class into a sink. Nothing is written unless the whole text can be read as
tokens. -/
def compileInto {σ : Type} [Sink σ] (source : String) (sink : σ) : EStateM.Result Error σ Unit :=
  match Cursor.ofSource source with
  | .error e => .error (.scan e) sink
  | .ok cursor =>
    match compileClass cursor sink with
    | .error e sink => .error (.compile e) sink
    | .ok _ sink => .ok () sink

/-- The bytes of the VM code of a class. -/
def compileBytes (source : String) : Except Error ByteArray :=
  match compileInto source ({} : Buffer) with
  | .error e _ => .error e
  | .ok _ buffer => .ok buffer.bytes

/-- The text of the VM code of a class. -/
def compile (source : String) : Except Error String := do
  match String.fromUTF8? (← compileBytes source) with
  | some text => return text
  | none => throw (.system .notText)

end Jack
