import XMustard.Store.Txn

/-!
# Scopes

Who may read an entry. A workspace entry is everyone's; every other scope is its author's alone, and
a run, session or directory scope only inside the key it was written under.
-/

namespace WorkspaceOps

open GovStore Text

/-- The identity that every caller without credentials has. -/
def isOpenModeIdentity (id : String) : Bool := equalFold (trimSpace id) openModeIdentity

/-- The keys a reader narrows its request by. -/
structure ScopeRequest where
  dir : String := ""
  runId : String := ""
  sessionId : String := ""

/-- The open-mode identity is nobody, so it shares no private memory even with itself. -/
def samePrincipal (a b : String) : Bool :=
  let a := trimSpace a
  let b := trimSpace b
  if a = "" ∨ b = "" ∨ isOpenModeIdentity a ∨ isOpenModeIdentity b then false else a = b

def scopesVisible (scope : Scope) (key author reader : String) (req : ScopeRequest) : Bool :=
  match scope with
  | .shared => false
  | .workspace => true
  | .privateScope => samePrincipal author reader
  | .global => samePrincipal author reader
  | .run => samePrincipal author reader && trimSpace req.runId ≠ "" && req.runId = key
  | .session => samePrincipal author reader && trimSpace req.sessionId ≠ "" && req.sessionId = key
  | .dir =>
    let dir := trimSpace req.dir
    samePrincipal author reader && dir ≠ ""
      && (dir = key || (key.toList ++ ['/']).isPrefixOf dir.toList)

end WorkspaceOps
