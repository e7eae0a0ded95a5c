import Xetcas.Routes.LfsDownload
import Xetcas.Server

namespace Xetcas
open Lib Routes

/-- A server together with its LFS downloads and the permits they share. -/
structure Service where
  server : Server
  downloadPermits : Nat
  downloads : Nat → Lfs.LfsDownload

namespace Service
variable (D : Deployment)

inductive Act where
  | server (act : Server.Act)
  | download (i : Nat) (act : Lfs.DownloadAct)

/-- What a process starts with, around its server. -/
def boot (server : Server) : Service :=
  ⟨server, Lfs.DEFAULT_DOWNLOAD_CONCURRENCY, fun _ => .none⟩

def step (s : Service) : Act → Option Service
  | .server .crash => (Server.step D s.server .crash).map boot
  | .server act => (Server.step D s.server act).map (fun t => { s with server := t })
  | .download i act =>
    (Lfs.downloadStep D.upstream s.server.state s.downloadPermits (s.downloads i) act).map (fun r =>
      { s with downloadPermits := r.1, downloads := Function.update s.downloads i r.2 })

/-- The service, started on an empty data directory. -/
def machine : Machine Service Act where
  start := fun s => s = boot (Server.boot D .fresh (fun _ => none))
  step := step D

/-- Upload handlers run until they return. Downloads may be hung up on. -/
def NoDrop (s : Service) : Act → Prop
  | .server act => Server.NoDrop s.server act
  | .download .. => True

/-- And no read of the index or of an object fails under a download. -/
def NoFault (s : Service) (a : Act) : Prop :=
  NoDrop s a ∧ ∀ i message, a ≠ .download i (.failRead message)

/-- The process stays up. -/
def NoCrash (_ : Service) (a : Act) : Prop := a ≠ .server .crash

inductive Moves (s : Service) : Act → Service → Prop
  | crash {t} (turn : Server.step D s.server .crash = some t) : Moves s (.server .crash) (boot t)
  | server {act t} (up : act ≠ .crash) (turn : Server.step D s.server act = some t) :
      Moves s (.server act) { s with server := t }
  | download {i act permits d}
      (turn : Lfs.downloadStep D.upstream s.server.state s.downloadPermits (s.downloads i) act =
        some (permits, d)) :
      Moves s (.download i act)
        { s with downloadPermits := permits, downloads := Function.update s.downloads i d }

variable {D} {ok : Service → Act → Prop} {s s' : Service}

theorem step_moves {a : Act} (h : step D s a = some s') : Moves D s a s' := by
  cases a with
  | server act =>
    unfold step at h
    split at h
    · rename_i he
      cases he
      obtain ⟨t, hturn, rfl⟩ := Option.map_eq_some_iff.mp h
      exact .crash hturn
    · rename_i hup he
      cases he
      obtain ⟨t, hturn, rfl⟩ := Option.map_eq_some_iff.mp h
      exact .server (fun hc => hup (by rw [hc])) hturn
    · rename_i he
      cases he
  | download i act =>
    obtain ⟨⟨permits, d⟩, hturn, rfl⟩ := Option.map_eq_some_iff.mp h
    exact .download hturn

/-- A step of the service is a step of its server, or leaves it alone. -/
theorem step_server {a : Act} (hok : NoDrop s a) (h : step D s a = some s') :
    s'.server = s.server ∨
      ∃ act, Server.NoDrop s.server act ∧ Server.step D s.server act = some s'.server := by
  cases step_moves h with
  | crash turn => exact .inr ⟨.crash, rfl, turn⟩
  | server up turn => exact .inr ⟨_, hok, turn⟩
  | download turn => exact .inl rfl

/-- What the server of a reachable service is, a reachable server is. -/
theorem reachable_server (h : (machine D).Reachable NoDrop s) :
    (Server.machine D).Reachable Server.NoDrop s.server := by
  refine h.invariant (I := fun s => (Server.machine D).Reachable Server.NoDrop s.server) ?_ ?_
  · intro s hsame
    subst hsame
    exact .start rfl
  · intro s a t _ hi hok hstep
    rcases step_server hok hstep with hsame | ⟨act, hact, hturn⟩
    · rw [hsame]
      exact hi
    · exact hi.next act hact hturn

/-- The letter is uploaded and registered. -/
def registerLetter : List Act :=
  (Server.sendLetter 0 Formats.plainBody ++ Server.checkLetter 0 ++ Server.storeLetter 0 ++
    Server.registerLetter 0 (some Formats.letterMetadata) ++
      [Server.Act.shard 0 .inserted]).map .server

/-- Download `i` asks for it and is answered. -/
def askLetter (i : Nat) : List Act :=
  [.download i (.request Formats.letterOid), .download i .looked, .download i .planned,
    .download i .permit]

/-- Its decode task reads the only chunk, and is over. -/
def decodeLetter (i : Nat) : List Act :=
  [.download i .opened, .download i .decoded, .download i .sent, .download i .turned,
    .download i .finished]

def receiveLetter (i : Nat) : List Act := [.download i .received, .download i .received]

/-- No upload is dropped and no read fails. -/
def faultless : Act → Bool
  | .server act => !Server.isDrop act
  | .download _ (.failRead _) => false
  | .download .. => true

theorem noFault_of_faultless {s : Service} {a : Act} (h : faultless a = true) : NoFault s a := by
  cases a with
  | server act => exact ⟨(Bool.not_eq_true' _).mp h, by simp⟩
  | download i act =>
    refine ⟨trivial, ?_⟩
    rintro _ _ ⟨rfl, rfl⟩
    cases h

/-- The process stays up, too. -/
def upAndFaultless (a : Act) : Bool :=
  faultless a && match a with
  | .server .crash => false
  | _ => true

theorem noCrash_of_upAndFaultless {s : Service} {a : Act} (h : upAndFaultless a = true) :
    NoFault s a ∧ NoCrash s a := by
  obtain ⟨hfaultless, hup⟩ := (Bool.and_eq_true _ _).mp h
  refine ⟨noFault_of_faultless hfaultless, ?_⟩
  rintro rfl
  cases hup

theorem sample_reaches {s₀ : Service} (h₀ : (machine Server.sampleServer).Reachable NoFault s₀)
    (p : Service → Bool) (as : List Act)
    (h : ((machine Server.sampleServer).exec (fun _ a => faultless a) s₀ as).map p = some true) :
    ∃ s, (machine Server.sampleServer).Run NoFault s₀ s ∧
      (machine Server.sampleServer).Reachable NoFault s ∧ p s = true := by
  obtain ⟨s, hrun, hp⟩ := Machine.exec_reaches (machine Server.sampleServer) NoFault
    (fun _ a => faultless a) p (fun _ _ h => noFault_of_faultless h) s₀ as h
  exact ⟨s, hrun, h₀.extend hrun, hp⟩

end Service

end Xetcas
