import Xetcas.Lib.Routing

namespace Xetcas.Routes
open Lib

inductive Method where
  | get
  | head
  | post
  | other (name : String)
  deriving DecidableEq

inductive Handler where
  | health
  | xorbsUpload
  | xorbsData
  | reconstructionsGet
  | chunksGet
  | shardsUpload
  | telemetry
  | v2Unsupported
  | lfsToken
  | lfsDownload
  | gitDispatch
  deriving DecidableEq

/-- The handler has a `Path` among its arguments. -/
def Handler.extractsPath : Handler → Bool
  | .xorbsUpload | .xorbsData | .reconstructionsGet | .chunksGet | .lfsDownload | .gitDispatch => true
  | .health | .shardsUpload | .telemetry | .v2Unsupported | .lfsToken => false

structure Route where
  pattern : List Segment
  allows : Method → Bool
  handler : Handler

/-- `get(..)`, which answers HEAD as well. -/
def onGet (method : Method) : Bool := method = .get || method = .head

def onPost (method : Method) : Bool := method = .post

def onAny (_ : Method) : Bool := true

def router : List Route := [
  ⟨[.static "health"], onGet, .health⟩,
  ⟨[.static "v1", .static "xorbs", .param, .param], onPost, .xorbsUpload⟩,
  ⟨[.static "v1", .static "xorbs", .param, .param, .static "data"], onGet, .xorbsData⟩,
  ⟨[.static "v1", .static "reconstructions", .param], onGet, .reconstructionsGet⟩,
  ⟨[.static "v1", .static "chunks", .param, .param], onGet, .chunksGet⟩,
  ⟨[.static "v1", .static "shards"], onPost, .shardsUpload⟩,
  ⟨[.static "v1", .static "telemetry"], onPost, .telemetry⟩,
  ⟨[.static "v2", .static "shards"], onAny, .v2Unsupported⟩,
  ⟨[.static "v2", .static "reconstructions", .rest], onAny, .v2Unsupported⟩,
  ⟨[.static "v2", .static "file-chunk-hashes", .rest], onAny, .v2Unsupported⟩,
  ⟨[.static "xet-token"], onGet, .lfsToken⟩,
  ⟨[.static "lfs", .static "objects", .param], onGet, .lfsDownload⟩,
  ⟨[.static "git", .rest], onAny, .gitDispatch⟩]

/-- A capture as `Path` extracts it. -/
def decodeCapture (raw : List Char) : Option String :=
  String.fromUTF8? ⟨⟨percentDecode (String.ofList raw).toUTF8.data.toList⟩⟩

inductive Routed where
  | call (handler : Handler) (captured : List String)
  /-- The handler asks for a capture that is not UTF-8. -/
  | badRequest
  | methodNotAllowed
  | notFound
  deriving DecidableEq

def dispatch (method : Method) (path : String) : Routed :=
  match path.toList with
  | '/' :: below =>
    match router.findSome? (fun r => (captures r.pattern (below.splitOn '/')).map (r, ·)) with
    | none => .notFound
    | some (r, raw) =>
      if r.allows method then
        if r.handler.extractsPath then
          match raw.mapM decodeCapture with
          | some captured => .call r.handler captured
          | none => .badRequest
        else .call r.handler []
      else .methodNotAllowed
  | _ => .notFound

/-- No path has two routes, so the order in which they are tried is of no matter. -/
theorem router_apart : router.Pairwise (fun r q => disjoint r.pattern q.pattern = true) := by
  decide

theorem routes_unique {r q : Route} (hr : r ∈ router) (hq : q ∈ router)
    {path : List (List Char)} (hrpath : (captures r.pattern path).isSome = true)
    (hqpath : (captures q.pattern path).isSome = true) : r = q := by
  obtain ⟨before, after, hrouter⟩ := List.append_of_mem hr
  have hapart := router_apart
  rw [hrouter, List.pairwise_append, List.pairwise_cons] at hapart
  obtain ⟨_, ⟨hafter, _⟩, hbefore⟩ := hapart
  rw [hrouter, List.mem_append, List.mem_cons] at hq
  rcases hq with hq | rfl | hq
  · rw [disjoint_sound (hbefore q hq r (by simp)) hqpath] at hrpath
    cases hrpath
  · rfl
  · rw [disjoint_sound (hafter q hq) hrpath] at hqpath
    cases hqpath

theorem findSome_route {r : Route} (hr : r ∈ router) {path raw : List (List Char)}
    (h : captures r.pattern path = some raw) :
    router.findSome? (fun r => (captures r.pattern path).map (r, ·)) = some (r, raw) := by
  cases hfound : router.findSome? (fun r => (captures r.pattern path).map (r, ·)) with
  | none =>
    have hnone := List.findSome?_eq_none_iff.mp hfound r hr
    rw [h] at hnone
    cases hnone
  | some found =>
    obtain ⟨q, hq, hfirst⟩ := List.exists_of_findSome?_eq_some hfound
    obtain ⟨raw', hraw, rfl⟩ := Option.map_eq_some_iff.mp hfirst
    have hrpath : (captures r.pattern path).isSome = true := by
      rw [h]
      rfl
    have hqpath : (captures q.pattern path).isSome = true := by
      rw [hraw]
      rfl
    have hsame : r = q := routes_unique hr hq hrpath hqpath
    subst hsame
    rw [h] at hraw
    cases hraw
    rfl

end Xetcas.Routes
