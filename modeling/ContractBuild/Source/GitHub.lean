import ContractBuild.Source.Url
import ContractBuild.Source.View

/-!
# Remote repositories over their web interface

`GitHub.address` is where a file is asked for, and `GitHub.refusal?` what keeps a request from being
sent. Nothing here sends one.
-/

namespace ContractBuild

open Text

/-- Access to repositories over the web. -/
structure GitHub where
  apiBase : String := "https://api.github.com"
  token : Option String := none
  deriving Repr, DecidableEq

namespace GitHub

/-- The address of a file, as it is put together. -/
def address (g : GitHub) (r : RemoteRef) : String :=
  String.ofList (dropEndWhile (· == '/') g.apiBase.toList) ++ "/repos/" ++ r.repository ++
    "/contents/" ++ r.path.text

/-- Whether a character can stand in a header. -/
def isHeaderChar (c : Char) : Bool := c == '\t' || (0x20 ≤ c.toNat && c.toNat ≤ 0x7e)

/-- What keeps a request from being sent: a token that is no header, an address that is none, or a
scheme other than that of the web. -/
def refusal? (g : GitHub) (r : RemoteRef) : Option String :=
  match g.token.filter fun token => !token.toList.all isHeaderChar with
  | some token => some s!"Bad Header: invalid header 'Authorization: Bearer {token}'"
  | none =>
    match Url.read (g.address r) with
    | .error fault => some s!"Bad URL: failed to parse URL: {fault.message}"
    | .ok url =>
      if url.scheme == "http" || url.scheme == "https" then none
      else some s!"{url.text}: Unknown Scheme: unknown scheme '{url.scheme}'"

/-- The failure of a request that is not sent. -/
def failure (g : GitHub) (r : RemoteRef) : Failure :=
  let reason := (g.refusal? r).getD "Network is unreachable"
  ⟨s!"GET {g.address r} failed: {reason}", []⟩

/-- Repositories that no request reaches. -/
def unreachable (g : GitHub) : Remote where
  fetch r := .error (g.failure r)
  size := 0

end GitHub

end ContractBuild
