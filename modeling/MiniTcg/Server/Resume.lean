import MiniTcg.Server.Waiting

/-!
# Resuming a session

Cutting the connection at a `proto_recv` and resuming in a new worker is not
visible in the match: it is a function of the packets received and the draws.
-/
namespace MiniTcg.Server

open MiniTcg.Game MiniTcg.Ipc MiniTcg.Wire

/-- A `RESUME_REQ` of the session's own id succeeds and shows what was shown last. -/
def ResumeShows (s : Session) : Move → Prop
  | .ipc env => s.worker.pc = .load s.sid → s.sid ≠ 0 →
      ∃ last st hand, lastState s.worker.io = some last ∧ lastHand s.worker.io = some hand ∧
        st.toCore = last.toCore ∧ (s.step (.ipc env)).worker.pc = .recv ∧
        (s.step (.ipc env)).worker.io =
          .sent (.hand hand) :: .sent (.state st) :: .sent (.resumeResp 1 s.sid) :: s.worker.io
  | _ => True

section Resume
variable {rng : ℕ → ℕ} {ms : List Move}

theorem Follows.resumeShows {s : Session} (h : Follows rng s) (m : Move) : ResumeShows s m := by
  cases m with
  | ipc env =>
    intro hpc hz
    have hd : Detached rng s := (h.greeting (Or.inr ⟨_, hpc⟩)).resolve_left fun b => hz b.sid
    obtain ⟨st, hl, hc, _⟩ := hd.stored
    obtain ⟨hstate, hhand⟩ := hd.shown
    obtain ⟨last, hlast, hcore⟩ := Option.map_eq_some_iff.mp hstate
    have hidle : Idle st.toCore := by
      rw [hc]
      exact (ref_reachable s rng).2
    obtain ⟨store, _, hstep⟩ := step_resume hpc hz hl hidle env
    rw [hstep]
    exact ⟨last, st, _, hlast, hhand, hc.trans hcore.symm, rfl, rfl⟩
  | _ => trivial

theorem Single.resumeShows (h : Single rng ms) :
    Run.Along Session.step ResumeShows (Session.start rng) ms :=
  Run.along_of_invariant (fun _ m hm => follows_step m hm) (fun _ m _ hf => hf.resumeShows m)
    (follows_start rng) h

theorem Single.saves_ok (h : Single rng ms) {a : Action} {st : State} {hand : Hand} {rc : ℤ}
    (hm : Io.saved a st hand rc ∈ (runSession rng ms).worker.io) : rc = 0 :=
  (h.follows.record _ hm).1

/-- Two runs that received the same packets agree, wherever either was cut. -/
theorem Single.agree {ms₀ : List Move} (h : Single rng ms) (h₀ : Single rng ms₀)
    (hpc : (runSession rng ms).worker.pc = .recv) (hpc₀ : (runSession rng ms₀).worker.pc = .recv)
    (heq : received (runSession rng ms₀).worker.io = received (runSession rng ms).worker.io) :
    (runSession rng ms).worker.game.Same (runSession rng ms₀).worker.game := by
  have hs := (h.follows.synced hpc).same
  have hs₀ := (h₀.follows.synced hpc₀).same
  refine hs.trans ?_
  rw [Session.ref, ← heq]
  exact hs₀.symm

/-- A session that was cut and resumed any number of times, with other sessions
using the store in between, is the uncut session with the same packets and draws;
every resume shows the table shown last, and every save succeeds. -/
theorem resume_transparent (h : Single rng ms) :
    ((runSession rng ms).worker.pc = .recv →
      (∀ ms₀, Single rng ms₀ → (∀ m ∈ ms₀, m.reconnects = false) →
        (runSession rng ms₀).worker.pc = .recv →
        received (runSession rng ms₀).worker.io = received (runSession rng ms).worker.io →
        (runSession rng ms).worker.game.st.toCore = (runSession rng ms₀).worker.game.st.toCore ∧
          (runSession rng ms).worker.game.hand = (runSession rng ms₀).worker.game.hand) ∧
      ∃ ms₀, Single rng ms₀ ∧ (∀ m ∈ ms₀, m.reconnects = false) ∧
        (runSession rng ms₀).worker.pc = .recv ∧
        received (runSession rng ms₀).worker.io = received (runSession rng ms).worker.io) ∧
      Run.Along Session.step ResumeShows (Session.start rng) ms ∧
      ∀ a st hand rc, Io.saved a st hand rc ∈ (runSession rng ms).worker.io → rc = 0 := by
  refine ⟨fun hpc => ⟨fun ms₀ h₀ _ hpc₀ heq => ?_, ?_⟩, h.resumeShows, fun a st hand rc hm => ?_⟩
  · have hsame := h.agree h₀ hpc hpc₀ heq
    exact ⟨hsame.core, hsame.hand⟩
  · obtain ⟨h₀, hpc₀, hr₀⟩ := serve_run rng (received (runSession rng ms).worker.io)
    exact ⟨_, h₀, serve_uncut _, hpc₀, hr₀⟩
  · exact h.saves_ok hm

end Resume

def resumePacket : Packet := ⟨opResumeReq, [1, 0, 0, 0, 0, 0, 0, 0]⟩

/-- The connection is lost, and the client resumes session 1 in a new worker. -/
def cutMoves : List Move := [.recv none, .reconnect, .recv (some resumePacket), .ipc env0]

theorem resume_transparent_cut :
    (runSession (fun _ => 2)
        (serve [⟨opPlayCard, [0]⟩] ++ cutMoves ++ servePacket ⟨opEndTurn, []⟩)).worker.game.st.toCore =
      (runSession (fun _ => 2) (serve [⟨opPlayCard, [0]⟩, ⟨opEndTurn, []⟩])).worker.game.st.toCore := by
  have hcut : Single (fun _ => 2)
      (serve [⟨opPlayCard, [0]⟩] ++ cutMoves ++ servePacket ⟨opEndTurn, []⟩) := by decide +kernel
  obtain ⟨h₀, hpc₀, hr₀⟩ := serve_run (fun _ => 2) [⟨opPlayCard, [0]⟩, ⟨opEndTurn, []⟩]
  exact (((resume_transparent hcut).1 rfl).1 _ h₀ (serve_uncut _) hpc₀ (hr₀.trans rfl)).1

end MiniTcg.Server
