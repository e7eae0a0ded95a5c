import Xetcas.KeyedLocks
import Xetcas.Lib.FileTree
import Xetcas.Routes.Git

namespace Xetcas.Routes.Git
open Lib

abbrev Place := List Component
abbrev Files := FileTree Component Bytes

def isUuidChar (c : Char) : Bool := ('0' ≤ c && c ≤ '9') || ('a' ≤ c && c ≤ 'f') || c == '-'

structure Uuid where
  text : List Char
  chars : ∀ c ∈ text, isUuidChar c = true
  length : text.length = 36
  deriving DecidableEq

inductive Exit where
  | unspawned (message : String)
  | failed (stderr : String)
  | done

/-- The program `git`: what a command leaves of the directory it runs in, and
what `http-backend` leaves of the repository it serves. What neither the command
nor the directory determines is left to `ε`. -/
structure GitTool (ε : Type) where
  run : List String → ε → Files → Files × Exit
  backend : ε → Files → Files

def debugArgs (args : List String) : String :=
  "[" ++ ", ".intercalate (args.map String.quote) ++ "]"

/-- `create_dir_all`, which can stop with an error after some directories. -/
def mkdirs (t : Files) (p : Place) : Option (Nat × String) → Option (Files × AppResult Unit)
  | none => (t.createDirAll p).map (·, .ok ())
  | some (made, message) => (t.createDirAll (p.take made)).map (·, .error (.io message))

/-- `rename`, which can fail. -/
def move (t : Files) (source target : Place) : Option String → Option (Files × AppResult Unit)
  | none => (t.rename source target).map (·, .ok ())
  | some message => some (t, .error (.io message))

/-- `remove_dir_all`, which can leave some of the directory behind. -/
def removeAll (t : Files) (p : Place) (gone : List Place) : Files := t.remove (gone.map (p ++ ·))

section Tool
variable {ε : Type} (git : GitTool ε)

def runGit (args : List String) (luck : ε) (t : Files) (dir : List Char) :
    Files × AppResult Unit :=
  let (after, exit) := git.run args luck (t.sub (resolve dir))
  (t.graft (resolve dir) after,
    match exit with
    | .unspawned message => .error (.internal s!"spawn git: {message}")
    | .failed stderr =>
      .error (.internal s!"git {debugArgs args} failed: {String.ofList (trim stderr.toList)}")
    | .done => .ok ())

end Tool

/-- Where a repository is built, before it is renamed into place. -/
def staging (config : GitConfig) (u : Uuid) : List Char :=
  join (join config.root STAGING_DIR.toList) u.text

/-- Whether `dir` is a repository `git http-backend` can be pointed at. -/
def repoIsReady (t : Files) (dir : List Char) : Bool := t.isFile (resolve (join dir "HEAD".toList))

/-- Where a request stands. From `drawing` to `counting` it is in `autocreate`. -/
inductive Stage where
  | idle
  /-- Before the first `repo_is_ready`. -/
  | testing
  /-- The repository was not ready; the lock is not asked for yet. -/
  | wanting
  /-- In `lock(&repo).await`. -/
  | locking
  | rechecking
  | drawing
  | initializing (u : Uuid)
  | configuring (u : Uuid)
  | parenting (u : Uuid)
  | placing (u : Uuid)
  | cleaning (u : Uuid) (e : AppError)
  | retesting (e : AppError)
  | counting
  /-- The guard is being dropped, on the way to `cgi` or out with an error. -/
  | leaving (failure : Option AppError)
  /-- In `cgi`. -/
  | serving
  /-- In the hands of the LFS bridge. -/
  | bridged
  | ended (failure : Option AppError)
  deriving DecidableEq

/-- The staging directory that an attempt has made and not yet let go of. -/
@[simp] def Stage.staged : Stage → Option Uuid
  | initializing u | configuring u | parenting u | placing u | cleaning u _ => some u
  | _ => none

/-- The request has a repository, and no response yet. -/
@[simp] def Stage.live : Stage → Bool
  | idle | bridged | ended _ => false
  | _ => true

/-- In the lock, up to the end of `autocreate`. -/
@[simp] def Stage.critical : Stage → Bool
  | rechecking | drawing | initializing _ | configuring _ | parenting _ | placing _
  | cleaning .. | retesting _ | counting => true
  | _ => false

/-- In `autocreate`, without having renamed a repository into place. -/
@[simp] def Stage.attempting : Stage → Bool
  | drawing | initializing _ | configuring _ | parenting _ | placing _
  | cleaning .. | retesting _ => true
  | _ => false

/-- In `cgi`, or on the way to it. -/
@[simp] def Stage.granted : Stage → Bool
  | counting | leaving none | serving => true
  | _ => false

structure Visit where
  repo : String
  dir : List Char
  stage : Stage

def Visit.none : Visit := ⟨"", [], .idle⟩

/-- What the requests share. `drawn` are the UUIDs of all staging directories
so far. -/
structure GitHost where
  tree : Files
  repoLocks : KeyedLocks
  reposCreated : Nat
  drawn : List Uuid

/-- The steps of a request, with what does not depend on the program: which
UUID is drawn, where a command fails, and what it fails with. -/
inductive GitAct (ε : Type) where
  | request (post : Bool) (path : String)
  | test
  | enter
  | acquire
  | recheck
  | draw (u : Uuid) (stop : Option (Nat × String))
  | init (luck : ε)
  | config (luck : ε)
  | parent (stop : Option (Nat × String))
  | place (fault : Option String)
  | clean (gone : List Place)
  | retest
  | count
  | unlock
  | leave
  | serve (luck : ε)
  | respond

/-- The beginning of `dispatch`. A path that a POST request ends in the batch
suffix goes to the LFS bridge. -/
def dispatchTo (config : GitConfig) (post : Bool) (path : String) :
    AppResult (Option (String × List Char)) := do
  sanitize path
  if post && BATCH_SUFFIX.toList.isSuffixOf path.toList then .ok none
  else
    let located ← locate config path
    .ok (some located)

def INIT_ARGS : List String := ["init", "--bare", "-b", "main"]
def CONFIG_ARGS : List String := ["config", "http.receivepack", "true"]

/-- The next stage of `built`, which an error leaves for the cleanup. -/
@[simp] def Stage.built (u : Uuid) (next : Stage) : AppResult Unit → Stage
  | .ok () => next
  | .error e => cleaning u e

/-- The next stage of a `create_dir_all` of the staging directory, which an
error leaves as it is. -/
@[simp] def Stage.drawn (u : Uuid) : AppResult Unit → Stage
  | .ok () => initializing u
  | .error e => leaving (some e)

/-- The next stage when the guard is gone. -/
@[simp] def Stage.answer : Option AppError → Stage
  | none => serving
  | some e => ended (some e)

/-- One step of dropping the guard. -/
def dropGuard (l : KeyedLocks) (i : Nat) : Option KeyedLocks :=
  match l.phase i with
  | .holding .. => l.step (.prune i)
  | .pruned _ => l.step (.unlock i)
  | .unlocked _ => l.step (.dropArc i)
  | _ => none

def gitStep {ε : Type} (git : GitTool ε) (config : GitConfig) (i : Nat) (g : GitHost) (v : Visit) :
    GitAct ε → Option (GitHost × Visit)
  | .request post path =>
    match v.stage with
    | .idle =>
      match dispatchTo config post path with
      | .ok (some (repo, dir)) => some (g, ⟨repo, dir, .testing⟩)
      | .ok none => some (g, { v with stage := .bridged })
      | .error e => some (g, { v with stage := .ended (some e) })
    | _ => none
  | .test =>
    match v.stage with
    | .testing =>
      some (g, { v with stage := if repoIsReady g.tree v.dir then .serving else .wanting })
    | _ => none
  | .enter =>
    match v.stage with
    | .wanting =>
      (g.repoLocks.step (.enter i v.repo)).map
        (fun locks => ({ g with repoLocks := locks }, { v with stage := .locking }))
    | _ => none
  | .acquire =>
    match v.stage with
    | .locking =>
      (g.repoLocks.step (.acquire i)).map
        (fun locks => ({ g with repoLocks := locks }, { v with stage := .rechecking }))
    | _ => none
  | .recheck =>
    match v.stage with
    | .rechecking =>
      let next : Stage :=
        if repoIsReady g.tree v.dir then .leaving none
        else if config.gitAutocreate then .drawing
        else .leaving (some .notFound)
      some (g, { v with stage := next })
    | _ => none
  | .draw u stop =>
    match v.stage with
    | .drawing =>
      if u ∈ g.drawn then none
      else (mkdirs g.tree (resolve (staging config u)) stop).map (fun (tree, made) =>
        ({ g with tree := tree, drawn := u :: g.drawn }, { v with stage := .drawn u made }))
    | _ => none
  | .init luck =>
    match v.stage with
    | .initializing u =>
      let (tree, ran) := runGit git INIT_ARGS luck g.tree (staging config u)
      some ({ g with tree := tree }, { v with stage := .built u (.configuring u) ran })
    | _ => none
  | .config luck =>
    match v.stage with
    | .configuring u =>
      let (tree, ran) := runGit git CONFIG_ARGS luck g.tree (staging config u)
      some ({ g with tree := tree }, { v with stage := .built u (.parenting u) ran })
    | _ => none
  | .parent stop =>
    match v.stage with
    | .parenting u =>
      (mkdirs g.tree (resolve v.dir).dropLast stop).map (fun (tree, made) =>
        ({ g with tree := tree }, { v with stage := .built u (.placing u) made }))
    | _ => none
  | .place fault =>
    match v.stage with
    | .placing u =>
      (move g.tree (resolve (staging config u)) (resolve v.dir) fault).map (fun (tree, moved) =>
        ({ g with tree := tree }, { v with stage := .built u .counting moved }))
    | _ => none
  | .clean gone =>
    match v.stage with
    | .cleaning u e =>
      some ({ g with tree := removeAll g.tree (resolve (staging config u)) gone },
        { v with stage := .retesting e })
    | _ => none
  | .retest =>
    match v.stage with
    | .retesting e =>
      let next : Stage :=
        if repoIsReady g.tree v.dir then .leaving none else .leaving (some e)
      some (g, { v with stage := next })
    | _ => none
  | .count =>
    match v.stage with
    | .counting =>
      some ({ g with reposCreated := g.reposCreated + 1 }, { v with stage := .leaving none })
    | _ => none
  | .unlock =>
    match v.stage with
    | .leaving _ =>
      (dropGuard g.repoLocks i).map (fun locks => ({ g with repoLocks := locks }, v))
    | _ => none
  | .leave =>
    match v.stage with
    | .leaving failure =>
      if g.repoLocks.phase i = .idle then
        some (g, { v with stage := .answer failure })
      else none
    | _ => none
  | .serve luck =>
    match v.stage with
    | .serving =>
      let after := git.backend luck (g.tree.sub (resolve v.dir))
      some ({ g with tree := g.tree.graft (resolve v.dir) after }, v)
    | _ => none
  | .respond =>
    match v.stage with
    | .serving => some (g, { v with stage := .ended none })
    | _ => none

structure GitDeployment (ε : Type) where
  git : GitTool ε
  config : GitConfig

inductive GitMoves {ε : Type} (D : GitDeployment ε) (i : Nat) (g : GitHost) (v : Visit) :
    GitAct ε → GitHost → Visit → Prop
  | turned {post path stage} (idle : v.stage = .idle)
      (gone : stage = .bridged ∨ ∃ e, stage = .ended (some e)) :
      GitMoves D i g v (.request post path) g { v with stage := stage }
  | admitted {post path repo dir} (idle : v.stage = .idle)
      (yes : dispatchTo D.config post path = .ok (some (repo, dir))) :
      GitMoves D i g v (.request post path) g ⟨repo, dir, .testing⟩
  | found {act stage} (ready : repoIsReady g.tree v.dir = true)
      (test : v.stage = .testing ∧ stage = .serving ∨
        (v.stage = .rechecking ∨ ∃ e, v.stage = .retesting e) ∧ stage = .leaving none) :
      GitMoves D i g v act g { v with stage := stage }
  | missing {act} (stage : v.stage = .testing) :
      GitMoves D i g v act g { v with stage := .wanting }
  | enter {act locks} (stage : v.stage = .wanting)
      (enter : g.repoLocks.step (.enter i v.repo) = some locks) :
      GitMoves D i g v act { g with repoLocks := locks } { v with stage := .locking }
  | acquire {act locks} (stage : v.stage = .locking)
      (acquire : g.repoLocks.step (.acquire i) = some locks) :
      GitMoves D i g v act { g with repoLocks := locks } { v with stage := .rechecking }
  | begin {act} (stage : v.stage = .rechecking) (absent : repoIsReady g.tree v.dir = false) :
      GitMoves D i g v act g { v with stage := .drawing }
  /-- The request is given up: creation is off, or the attempt has failed. -/
  | givenUp {act e} (stage : v.stage = .rechecking ∨ v.stage = .retesting e) :
      GitMoves D i g v act g { v with stage := .leaving (some e) }
  | drawn {u stop tree} (stage : v.stage = .drawing) (new : u ∉ g.drawn)
      (made : g.tree.createDirAll (resolve (staging D.config u)) = some tree) :
      GitMoves D i g v (.draw u stop) { g with tree := tree, drawn := u :: g.drawn }
        { v with stage := .initializing u }
  | undrawn {u stop tree made e} (stage : v.stage = .drawing) (new : u ∉ g.drawn)
      (some_ : g.tree.createDirAll ((resolve (staging D.config u)).take made) = some tree) :
      GitMoves D i g v (.draw u stop) { g with tree := tree, drawn := u :: g.drawn }
        { v with stage := .leaving (some e) }
  | initialized {act u luck after} (stage : v.stage = .initializing u)
      (ran : D.git.run INIT_ARGS luck (g.tree.sub (resolve (staging D.config u))) =
        (after, .done)) :
      GitMoves D i g v act { g with tree := g.tree.graft (resolve (staging D.config u)) after }
        { v with stage := .configuring u }
  | configured {act u luck after} (stage : v.stage = .configuring u)
      (ran : D.git.run CONFIG_ARGS luck (g.tree.sub (resolve (staging D.config u))) =
        (after, .done)) :
      GitMoves D i g v act { g with tree := g.tree.graft (resolve (staging D.config u)) after }
        { v with stage := .parenting u }
  | gitFailed {act u args luck after exit e}
      (stage : v.stage = .initializing u ∨ v.stage = .configuring u)
      (known : args = INIT_ARGS ∨ args = CONFIG_ARGS)
      (ran : D.git.run args luck (g.tree.sub (resolve (staging D.config u))) = (after, exit)) :
      GitMoves D i g v act { g with tree := g.tree.graft (resolve (staging D.config u)) after }
        { v with stage := .cleaning u e }
  | parented {act u tree} (stage : v.stage = .parenting u)
      (made : g.tree.createDirAll (resolve v.dir).dropLast = some tree) :
      GitMoves D i g v act { g with tree := tree } { v with stage := .placing u }
  | unparented {act u tree made e} (stage : v.stage = .parenting u)
      (some_ : g.tree.createDirAll ((resolve v.dir).dropLast.take made) = some tree) :
      GitMoves D i g v act { g with tree := tree } { v with stage := .cleaning u e }
  | placed {act u tree} (stage : v.stage = .placing u)
      (renamed : g.tree.rename (resolve (staging D.config u)) (resolve v.dir) = some tree) :
      GitMoves D i g v act { g with tree := tree } { v with stage := .counting }
  | unplaced {act u e} (stage : v.stage = .placing u) :
      GitMoves D i g v act g { v with stage := .cleaning u e }
  | cleaned {act u e gone} (stage : v.stage = .cleaning u e) :
      GitMoves D i g v act
        { g with tree := removeAll g.tree (resolve (staging D.config u)) gone }
        { v with stage := .retesting e }
  | counted {act} (stage : v.stage = .counting) :
      GitMoves D i g v act { g with reposCreated := g.reposCreated + 1 }
        { v with stage := .leaving none }
  | unlock {act failure lockAct locks} (stage : v.stage = .leaving failure)
      (lockStep : g.repoLocks.step lockAct = some locks)
      (kind : lockAct = .prune i ∨ lockAct = .unlock i ∨ lockAct = .dropArc i) :
      GitMoves D i g v act { g with repoLocks := locks } v
  | left {act failure} (stage : v.stage = .leaving failure) :
      GitMoves D i g v act g { v with stage := .answer failure }
  | served {act luck after} (stage : v.stage = .serving)
      (ran : D.git.backend luck (g.tree.sub (resolve v.dir)) = after) :
      GitMoves D i g v act { g with tree := g.tree.graft (resolve v.dir) after } v
  | responded {act} (stage : v.stage = .serving) :
      GitMoves D i g v act g { v with stage := .ended none }

section Inversion
variable {ε : Type} {D : GitDeployment ε} {i : Nat} {g g' : GitHost} {v v' : Visit} {act : GitAct ε}

theorem mkdirs_cases {t t' : Files} {p : Place} {stop : Option (Nat × String)}
    {made : AppResult Unit} (h : mkdirs t p stop = some (t', made)) :
    made = .ok () ∧ t.createDirAll p = some t' ∨
      ∃ k e, made = .error e ∧ t.createDirAll (p.take k) = some t' := by
  unfold mkdirs at h
  split at h
  · obtain ⟨tree, htree, he⟩ := Option.map_eq_some_iff.mp h
    cases he
    exact .inl ⟨rfl, htree⟩
  · rename_i k message
    obtain ⟨tree, htree, he⟩ := Option.map_eq_some_iff.mp h
    cases he
    exact .inr ⟨k, _, rfl, htree⟩

theorem move_cases {t t' : Files} {source target : Place} {fault : Option String}
    {moved : AppResult Unit} (h : move t source target fault = some (t', moved)) :
    moved = .ok () ∧ t.rename source target = some t' ∨ ∃ e, moved = .error e ∧ t' = t := by
  unfold move at h
  split at h
  · obtain ⟨tree, htree, he⟩ := Option.map_eq_some_iff.mp h
    cases he
    exact .inl ⟨rfl, htree⟩
  · cases h
    exact .inr ⟨_, rfl, rfl⟩

/-- A command leaves what it leaves of its directory, however it ends. -/
theorem runGit_cases {git : GitTool ε} {args : List String} {luck : ε} {t t' : Files}
    {dir : List Char} {ran : AppResult Unit} (h : runGit git args luck t dir = (t', ran)) :
    ∃ after exit, git.run args luck (t.sub (resolve dir)) = (after, exit) ∧
      t' = t.graft (resolve dir) after ∧ (ran = .ok () ∧ exit = .done ∨ ∃ e, ran = .error e) := by
  unfold runGit at h
  cases hrun : git.run args luck (t.sub (resolve dir)) with
  | mk after exit =>
    rw [hrun] at h
    cases h
    refine ⟨after, exit, rfl, rfl, ?_⟩
    cases exit with
    | unspawned message => exact .inr ⟨_, rfl⟩
    | failed stderr => exact .inr ⟨_, rfl⟩
    | done => exact .inl ⟨rfl, rfl⟩

theorem dropGuard_step {l l' : KeyedLocks} (h : dropGuard l i = some l') :
    ∃ act, l.step act = some l' ∧ (act = .prune i ∨ act = .unlock i ∨ act = .dropArc i) := by
  unfold dropGuard at h
  split at h
  · exact ⟨_, h, .inl rfl⟩
  · exact ⟨_, h, .inr (.inl rfl)⟩
  · exact ⟨_, h, .inr (.inr rfl)⟩
  · cases h

theorem gitStep_moves (h : gitStep D.git D.config i g v act = some (g', v')) :
    GitMoves D i g v act g' v' := by
  cases act with
  | request post path =>
    simp only [gitStep] at h
    split at h
    · rename_i idle
      split at h
      · rename_i repo dir yes
        cases h
        exact .admitted idle yes
      · cases h
        exact .turned idle (.inl rfl)
      · rename_i e _
        cases h
        exact .turned idle (.inr ⟨e, rfl⟩)
    · cases h
  | test =>
    simp only [gitStep] at h
    split at h
    · rename_i stage
      cases h
      cases hready : repoIsReady g.tree v.dir with
      | true => exact .found hready (.inl ⟨stage, rfl⟩)
      | false => exact .missing stage
    · cases h
  | enter =>
    simp only [gitStep] at h
    split at h
    · rename_i stage
      obtain ⟨locks, hlocks, he⟩ := Option.map_eq_some_iff.mp h
      cases he
      exact .enter stage hlocks
    · cases h
  | acquire =>
    simp only [gitStep] at h
    split at h
    · rename_i stage
      obtain ⟨locks, hlocks, he⟩ := Option.map_eq_some_iff.mp h
      cases he
      exact .acquire stage hlocks
    · cases h
  | recheck =>
    simp only [gitStep] at h
    split at h
    · rename_i stage
      cases h
      cases hready : repoIsReady g.tree v.dir with
      | true => exact .found hready (.inr ⟨.inl stage, rfl⟩)
      | false =>
        cases D.config.gitAutocreate with
        | true => exact .begin stage hready
        | false => exact .givenUp (.inl stage)
    · cases h
  | draw u stop =>
    simp only [gitStep] at h
    split at h
    · rename_i stage
      split at h
      · cases h
      · rename_i new
        obtain ⟨⟨tree, made⟩, hmade, he⟩ := Option.map_eq_some_iff.mp h
        cases he
        rcases mkdirs_cases hmade with ⟨rfl, htree⟩ | ⟨k, e, rfl, htree⟩
        · exact .drawn stage new htree
        · exact .undrawn stage new htree
    · cases h
  | init luck =>
    simp only [gitStep] at h
    split at h
    · rename_i u stage
      cases hrun : runGit D.git INIT_ARGS luck g.tree (staging D.config u) with
      | mk tree ran =>
        rw [hrun] at h
        cases h
        obtain ⟨after, exit, ran, rfl, ⟨rfl, rfl⟩ | ⟨e, rfl⟩⟩ := runGit_cases hrun
        · exact .initialized stage ran
        · exact .gitFailed (.inl stage) (.inl rfl) ran
    · cases h
  | config luck =>
    simp only [gitStep] at h
    split at h
    · rename_i u stage
      cases hrun : runGit D.git CONFIG_ARGS luck g.tree (staging D.config u) with
      | mk tree ran =>
        rw [hrun] at h
        cases h
        obtain ⟨after, exit, ran, rfl, ⟨rfl, rfl⟩ | ⟨e, rfl⟩⟩ := runGit_cases hrun
        · exact .configured stage ran
        · exact .gitFailed (.inr stage) (.inr rfl) ran
    · cases h
  | parent stop =>
    simp only [gitStep] at h
    split at h
    · rename_i u stage
      obtain ⟨⟨tree, made⟩, hmade, he⟩ := Option.map_eq_some_iff.mp h
      cases he
      rcases mkdirs_cases hmade with ⟨rfl, htree⟩ | ⟨k, e, rfl, htree⟩
      · exact .parented stage htree
      · exact .unparented stage htree
    · cases h
  | place fault =>
    simp only [gitStep] at h
    split at h
    · rename_i u stage
      obtain ⟨⟨tree, moved⟩, hmoved, he⟩ := Option.map_eq_some_iff.mp h
      cases he
      rcases move_cases hmoved with ⟨rfl, htree⟩ | ⟨e, rfl, rfl⟩
      · exact .placed stage htree
      · exact .unplaced stage
    · cases h
  | clean gone =>
    simp only [gitStep] at h
    split at h
    · rename_i u e stage
      cases h
      exact .cleaned stage
    · cases h
  | retest =>
    simp only [gitStep] at h
    split at h
    · rename_i e stage
      cases h
      cases hready : repoIsReady g.tree v.dir with
      | true => exact .found hready (.inr ⟨.inr ⟨e, stage⟩, rfl⟩)
      | false => exact .givenUp (.inr stage)
    · cases h
  | count =>
    simp only [gitStep] at h
    split at h
    · rename_i stage
      cases h
      exact .counted stage
    · cases h
  | unlock =>
    simp only [gitStep] at h
    split at h
    · rename_i failure stage
      obtain ⟨locks, hlocks, he⟩ := Option.map_eq_some_iff.mp h
      cases he
      obtain ⟨lockAct, hstep, hkind⟩ := dropGuard_step hlocks
      exact .unlock stage hstep hkind
    · cases h
  | leave =>
    simp only [gitStep] at h
    split at h
    · rename_i failure stage
      split at h
      · cases h
        exact .left stage
      · cases h
    · cases h
  | serve luck =>
    simp only [gitStep] at h
    split at h
    · rename_i stage
      cases h
      exact .served stage rfl
    · cases h
  | respond =>
    simp only [gitStep] at h
    split at h
    · rename_i stage
      cases h
      exact .responded stage
    · cases h

end Inversion

/-- All requests that ever come in, by number. -/
structure GitServer where
  host : GitHost
  visits : Nat → Visit

namespace GitServer
variable {ε : Type} (D : GitDeployment ε)

def step (s : GitServer) : Nat × GitAct ε → Option GitServer
  | (i, act) =>
    (gitStep D.git D.config i s.host (s.visits i) act).map
      (fun (g, v) => ⟨g, Function.update s.visits i v⟩)

/-- A server that starts over whatever is in the file system. -/
def boot (tree : Files) : GitServer where
  host := ⟨tree, .empty, 0, []⟩
  visits := fun _ => .none

def machine : Machine GitServer (Nat × GitAct ε) where
  start := fun s => ∃ tree, s = boot tree
  step := step D

theorem step_moves {D : GitDeployment ε} {s s' : GitServer} {i : Nat} {act : GitAct ε}
    (h : step D s (i, act) = some s') : ∃ g v, GitMoves D i s.host (s.visits i) act g v ∧
      s' = ⟨g, Function.update s.visits i v⟩ := by
  obtain ⟨⟨g, v⟩, hstep, rfl⟩ := Option.map_eq_some_iff.mp h
  exact ⟨g, v, gitStep_moves hstep, rfl⟩

end GitServer

end Xetcas.Routes.Git
