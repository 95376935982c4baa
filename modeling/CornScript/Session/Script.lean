import CornScript.Session

/-! # Scripts

A whole text is run as one program. Its value is shown after what it printed, unless it is null; a
fatal error is shown against the text.
-/

namespace CornScript

/-- How a script ended. `errors` is what belongs on the error stream. -/
structure Script where
  answer : Session.Answer
  errors : Bytes
  session : Session

def Session.runScript (s : Session) (fuel : Nat) (name source : Bytes) : Script :=
  match s.exec fuel source with
  | (.fatal e, s) => ⟨.fatal e, e.diagnostic.render name source, s⟩
  | (.finished (.value r), s) =>
    let s := match s.object r with
      | .null => s
      | o => s.print (o.inspect ++ text "\n")
    ⟨.finished (.value r), [], s⟩
  | (answer, s) => ⟨answer, [], s⟩

end CornScript
