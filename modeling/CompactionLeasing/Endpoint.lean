import CompactionLeasing.Metrics.Exposition

/-!
# The HTTP endpoint

Two pages can be read: the exposition of the tallies, and a sign of life.
-/

namespace CompactionLeasing

structure Response where
  status : Nat
  contentType : Option String
  /-- The methods that a known page allows, where another one was used. -/
  allow : Option String
  body : String
deriving DecidableEq

namespace Endpoint

def page? (m : Metrics) (path : String) : Option Response :=
  if path = "/metrics" then
    some ⟨200, some "text/plain; version=0.0.4; charset=utf-8", none, Exposition.render m.snapshot⟩
  else if path = "/healthz" then some ⟨200, some "text/plain; charset=utf-8", none, "ok"⟩
  else none

/-- What follows the scheme and the authority of an absolute target; other targets are left as they
are. -/
def afterAuthority (target : List Char) : List Char :=
  match target.dropWhile fun c => c ≠ '/' ∧ c ≠ ':' with
  | ':' :: '/' :: '/' :: r => r.dropWhile fun c => c ≠ '/' ∧ c ≠ '?' ∧ c ≠ '#'
  | _ => target

/-- The path of a request target, which ends where a query or a fragment begins. -/
def pathOf (target : String) : String :=
  String.ofList ((afterAuthority target.toList).takeWhile fun c => c ≠ '?' ∧ c ≠ '#')

/-- Answers a request. A page is read by `GET`, and by `HEAD` without its body. -/
def respond (m : Metrics) (method target : String) : Response :=
  match page? m (pathOf target) with
  | none => ⟨404, none, none, ""⟩
  | some page =>
    if method = "GET" then page
    else if method = "HEAD" then { page with body := "" }
    else ⟨405, none, some "GET,HEAD", ""⟩

end Endpoint

end CompactionLeasing
