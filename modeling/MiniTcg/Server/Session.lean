import MiniTcg.Game.Invariant
import MiniTcg.Ipc.Refinement
import MiniTcg.Server.Worker

/-!
# One session, one worker at a time

A `Session` is the shared store, the worker that currently serves the session
and the id the session was given at its login. A run interleaves the worker's
steps with store calls of other sessions; when the worker has exited, the client
may reconnect to a new one and resume. `Follows` ties every state of such a run
to the playout of the packets received so far.
-/
namespace MiniTcg.Server

open MiniTcg.Game MiniTcg.Ipc MiniTcg.Wire

structure Session where
  store : Store
  worker : Worker
  sid : UInt64

inductive Move
  | recv (r : Option Packet)
  | ipc (env : AllocEnv)
  | reconnect
  | other (c : Call)

/-- A newly forked worker, with the draws still to come and the records of the
session carried over. -/
def Worker.renew (w : Worker) : Worker :=
  { Worker.init w.game.rng with
    game := { origin w.game.rng with trace := w.game.trace }
    io := w.io }

def Session.step (s : Session) : Move → Session
  | .recv r => { s with worker := s.worker.onRecv r }
  | .ipc env =>
    let r := s.worker.onIpc s.store env
    ⟨r.2, r.1, if s.sid = 0 then r.1.mySid else s.sid⟩
  | .reconnect => { s with worker := s.worker.renew }
  | .other c => { s with store := (s.store.call c).1 }

def Session.start (rng : ℕ → ℕ) : Session := ⟨Store.zero, Worker.init rng, 0⟩

/-- A call of another session: it names and returns other ids. -/
def Avoids (store : Store) (sid : UInt64) : Call → Prop
  | .alloc env => (ipcAllocSession store env).2 ≠ sid
  | .save sid' .. => sid' ≠ sid
  | .load sid' .. => sid' ≠ sid
  | .touch sid' _ => sid' ≠ sid

instance (store : Store) (sid : UInt64) : (c : Call) → Decidable (Avoids store sid c)
  | .alloc _ => inferInstanceAs (Decidable (_ ≠ _))
  | .save .. => inferInstanceAs (Decidable (_ ≠ _))
  | .load .. => inferInstanceAs (Decidable (_ ≠ _))
  | .touch .. => inferInstanceAs (Decidable (_ ≠ _))

def Pc.logsIn : Pc → Option Packet → Bool
  | .handshake, some p => p.op == opLoginReq
  | _, _ => false

def Pc.loads : Pc → Option UInt64
  | .load sid => some sid
  | _ => none

def Pc.exited : Pc → Bool
  | .closed => true
  | _ => false

/-- The moves of a session: it logs in once, a resume is either of its own id or
fails, and a new worker is started only after the last one has exited. -/
def Session.Allowed (s : Session) : Move → Prop
  | .recv r => s.worker.pc.logsIn r = true → s.sid = 0
  | .ipc _ => ∀ sid ∈ s.worker.pc.loads.toList,
      s.store.lookup sid = none ∨ (sid = s.sid ∧ s.sid ≠ 0)
  | .reconnect => s.worker.pc.exited = true ∧ s.sid ≠ 0
  | .other c => s.sid = 0 ∨ Avoids s.store s.sid c

instance (s : Session) : (m : Move) → Decidable (s.Allowed m)
  | .recv _ => inferInstanceAs (Decidable (_ → _))
  | .ipc _ => List.decidableBAll
      (fun sid => s.store.lookup sid = none ∨ (sid = s.sid ∧ s.sid ≠ 0)) s.worker.pc.loads.toList
  | .reconnect => inferInstanceAs (Decidable (_ ∧ _))
  | .other _ => inferInstanceAs (Decidable (_ ∨ _))

/-- A single-worker run of a session. -/
abbrev Single (rng : ℕ → ℕ) (ms : List Move) : Prop :=
  Run.Along Session.step Session.Allowed (Session.start rng) ms

def runSession (rng : ℕ → ℕ) (ms : List Move) : Session := ms.foldl Session.step (Session.start rng)

/-! ### The match the session has agreed on -/

/-- The match of the packets received so far. -/
def Session.ref (s : Session) (rng : ℕ → ℕ) : Match := playout rng (received s.worker.io)

/-- The store holds the pair of `g` for the session, log aside. -/
def Stored (s : Session) (g : Match) : Prop :=
  ∃ st, s.store.lookup s.sid = some (st, g.hand) ∧ st.toCore = g.st.toCore ∧ st.LogOk

/-- A state that was reached on the way to the history `t`. -/
def FromTrace (t : List Event) (st : State) : Prop :=
  ∃ v, Reachable v ∧ v.core = st.toCore ∧ v.trace <:+ t

/-- The history of no match yet, or of a match. -/
def Traced (t : List Event) : Prop := t = [] ∨ ∃ v, Reachable v ∧ v.trace = t

/-- Every save succeeded, and every state saved or sent was reached. -/
def Recorded (t : List Event) : Io → Prop
  | .saved _ st _ rc => rc = 0 ∧ FromTrace t st
  | .sent (.state st) => FromTrace t st
  | _ => True

/-- No login yet. -/
structure Before (rng : ℕ → ℕ) (s : Session) : Prop where
  sid : s.sid = 0
  mine : s.worker.mySid = 0
  game : s.worker.game = origin rng
  none : received s.worker.io = []

/-- The worker holds no copy of the session's match. -/
structure Detached (rng : ℕ → ℕ) (s : Session) : Prop where
  sid : s.sid ≠ 0
  draws : s.worker.game.rng = (s.ref rng).rng
  trace : s.worker.game.trace = (s.ref rng).trace
  stored : Stored s (s.ref rng)
  shown : Shown s.worker.io (s.ref rng)

/-- The worker, the store and the client agree on the match. -/
structure Synced (rng : ℕ → ℕ) (s : Session) : Prop where
  sid : s.sid ≠ 0
  mine : s.worker.mySid = s.sid
  same : s.worker.game.Same (s.ref rng)
  log : s.worker.game.st.LogOk
  stored : Stored s (s.ref rng)
  shown : Shown s.worker.io (s.ref rng)

/-- What is left of the packet's effect when the result of `a` is saved. -/
def Ends (a : Action) (g ref : Match) : Prop :=
  match a with
  | .endTurn => (settle g).Same ref ∧ (g.st.aiDue → g.st.phase = .main)
  | .aiTurn true => False
  | _ => g.Same ref

/-- The worker has moved on and is about to save. -/
structure Saving (rng : ℕ → ℕ) (s : Session) (a : Action) : Prop where
  sid : s.sid ≠ 0
  mine : s.worker.mySid = s.sid
  known : (s.store.lookup s.sid).isSome
  log : s.worker.game.st.LogOk
  reach : Reachable s.worker.game.view
  ends : Ends a s.worker.game (s.ref rng)

def AtPc (rng : ℕ → ℕ) (s : Session) : Prop :=
  match s.worker.pc with
  | .handshake | .load _ => Before rng s ∨ Detached rng s
  | .alloc _ => s.sid = 0 ∧ s.worker.mySid = 0 ∧ s.worker.game = loginGame (origin rng) ∧
      received s.worker.io = []
  | .save a _ => Saving rng s a
  | .recv | .touch _ => Synced rng s
  | .closed => (s.sid = 0 ∧ s.worker.mySid = 0 ∧ Traced s.worker.game.trace) ∨ Detached rng s

/-- The refinement invariant of a session. -/
structure Follows (rng : ℕ → ℕ) (s : Session) : Prop where
  atPc : AtPc rng s
  record : ∀ e ∈ s.worker.io, Recorded s.worker.game.trace e

section AtPc
variable {rng : ℕ → ℕ} {s : Session}

theorem Follows.synced (h : Follows rng s) (hpc : s.worker.pc = .recv) : Synced rng s := by
  have hp := h.atPc
  unfold AtPc at hp
  rwa [hpc] at hp

theorem Follows.synced_touch (h : Follows rng s) {p : Packet} (hpc : s.worker.pc = .touch p) :
    Synced rng s := by
  have hp := h.atPc
  unfold AtPc at hp
  rwa [hpc] at hp

theorem Follows.saving (h : Follows rng s) {a : Action} {base : Match}
    (hpc : s.worker.pc = .save a base) : Saving rng s a := by
  have hp := h.atPc
  unfold AtPc at hp
  rwa [hpc] at hp

theorem Follows.greeting (h : Follows rng s)
    (hpc : s.worker.pc = .handshake ∨ ∃ sid, s.worker.pc = .load sid) :
    Before rng s ∨ Detached rng s := by
  have hp := h.atPc
  unfold AtPc at hp
  rcases hpc with hpc | ⟨sid, hpc⟩
  · rwa [hpc] at hp
  · rwa [hpc] at hp

end AtPc

/-! ### Sends, receipts and the record -/

theorem shown_plain {m : Msg} (hm : Msg.Plain m) {io : List Io} {g : Match} (h : Shown io g) :
    Shown (.sent m :: io) g := by
  unfold Shown lastState lastHand
  rw [List.findSome?_cons, List.findSome?_cons, hm.1, hm.2]
  exact h

theorem recorded_plain {m : Msg} (hm : Msg.Plain m) (t : List Event) : Recorded t (.sent m) := by
  cases m with
  | state st => exact absurd hm.1 (by simp [Io.state?])
  | _ => trivial

theorem FromTrace.mono {t t' : List Event} {st : State} (h : FromTrace t st) (ht : t <:+ t') :
    FromTrace t' st := by
  obtain ⟨v, hr, hc, hs⟩ := h
  exact ⟨v, hr, hc, hs.trans ht⟩

theorem Recorded.mono {t t' : List Event} {e : Io} (h : Recorded t e) (ht : t <:+ t') :
    Recorded t' e := by
  cases e with
  | got p => trivial
  | sent m =>
    cases m with
    | state st => exact FromTrace.mono h ht
    | _ => trivial
  | saved a st hand rc => exact ⟨h.1, h.2.mono ht⟩

theorem fromTrace_view {g : Match} (h : Reachable g.view) : FromTrace g.trace g.st :=
  ⟨g.view, h, rfl, List.suffix_refl _⟩

theorem recorded_answers {w w' : Worker} (h : Answers w w') (hr : Reachable w.game.view)
    (hio : ∀ e ∈ w.io, Recorded w.game.trace e) : ∀ e ∈ w'.io, Recorded w.game.trace e := by
  cases h with
  | silent => exact hio
  | plain hm => exact List.forall_mem_cons.mpr ⟨recorded_plain hm _, hio⟩
  | table =>
    refine List.forall_mem_cons.mpr ⟨trivial, List.forall_mem_cons.mpr ⟨?_, hio⟩⟩
    exact fromTrace_view hr

theorem Answers.frame {w w' : Worker} (h : Answers w w') :
    w'.game = w.game ∧ w'.mySid = w.mySid ∧ received w'.io = received w.io := by
  cases h <;> exact ⟨rfl, rfl, rfl⟩

theorem Answers.shown {w w' : Worker} (h : Answers w w') {g : Match} (hs : Shown w.io g)
    (hg : w.game.Same g) : Shown w'.io g := by
  cases h with
  | silent => exact hs
  | plain hm => exact shown_plain hm hs
  | table =>
    have ht := shown_sendTable w
    unfold Shown at ht ⊢
    rwa [hg.core, hg.hand] at ht

theorem loopTop_idle {w : Worker} (h : Idle w.game.st.toCore) :
    w.loopTop = { w with pc := .recv } := if_neg h.not_due

/-! ### One step of a session -/

section Steps
variable {rng : ℕ → ℕ} {s : Session}

theorem ref_reachable (s : Session) (rng : ℕ → ℕ) :
    Reachable (s.ref rng).view ∧ Idle (s.ref rng).st.toCore := playout_reachable rng _

theorem Synced.idle (h : Synced rng s) : Idle s.worker.game.st.toCore := by
  rw [h.same.core]
  exact (ref_reachable s rng).2

theorem Synced.reachable (h : Synced rng s) : Reachable s.worker.game.view := by
  rw [h.same.view]
  exact (ref_reachable s rng).1

/-- The invariant reads the store only at the session's own id. -/
theorem Follows.frame (h : Follows rng s) {store : Store}
    (hs : s.sid ≠ 0 → store.lookup s.sid = s.store.lookup s.sid) :
    Follows rng { s with store := store } := by
  refine ⟨?_, h.record⟩
  have hst : s.sid ≠ 0 → ∀ g, Stored s g → Stored { s with store := store } g := by
    rintro hz g ⟨st, hl, hc, hlog⟩
    exact ⟨st, (hs hz).trans hl, hc, hlog⟩
  have hd : Detached rng s → Detached rng { s with store := store } := fun d =>
    ⟨d.sid, d.draws, d.trace, hst d.sid _ d.stored, d.shown⟩
  have hb : Before rng s → Before rng { s with store := store } := fun b =>
    ⟨b.sid, b.mine, b.game, b.none⟩
  have hp := h.atPc
  unfold AtPc at hp ⊢
  cases hpc : s.worker.pc with
  | handshake | load sid =>
    simp only [hpc] at hp ⊢
    exact hp.imp hb hd
  | alloc base =>
    simp only [hpc] at hp ⊢
    exact hp
  | save a base =>
    simp only [hpc] at hp ⊢
    refine ⟨hp.sid, hp.mine, ?_, hp.log, hp.reach, hp.ends⟩
    change (store.lookup s.sid).isSome
    rw [hs hp.sid]
    exact hp.known
  | recv | touch p =>
    simp only [hpc] at hp ⊢
    exact ⟨hp.sid, hp.mine, hp.same, hp.log, hst hp.sid _ hp.stored, hp.shown⟩
  | closed =>
    simp only [hpc] at hp ⊢
    exact hp.imp id hd

/-- Answering a packet that left the match brings the worker back to `proto_recv`. -/
theorem follows_answer {w w' : Worker} {store : Store} {sid : UInt64}
    (h : Synced rng ⟨store, w, sid⟩) (hio : ∀ e ∈ w.io, Recorded w.game.trace e)
    (ha : Answers w w') : Follows rng ⟨store, w'.loopTop, sid⟩ := by
  obtain ⟨hg, hm, hr⟩ := ha.frame
  have hidle : Idle w'.game.st.toCore := by
    rw [hg]
    exact h.idle
  have href : Session.ref ⟨store, { w' with pc := .recv }, sid⟩ rng =
      Session.ref ⟨store, w, sid⟩ rng := by
    simp only [Session.ref, hr]
  rw [loopTop_idle hidle]
  refine ⟨⟨h.sid, hm.trans h.mine, ?_, ?_, ?_, ?_⟩, ?_⟩
  · rw [href]
    exact hg ▸ h.same
  · exact hg ▸ h.log
  · rw [href]
    exact h.stored
  · rw [href]
    exact ha.shown h.shown h.same
  · change ∀ e ∈ w'.io, Recorded w'.game.trace e
    rw [hg]
    exact recorded_answers ha h.reachable hio

theorem Stored.isSome {g : Match} (h : Stored s g) : (s.store.lookup s.sid).isSome := by
  obtain ⟨st, hl, _⟩ := h
  rw [hl]
  rfl

/-- A worker that has played or ended the turn is about to save the new match. -/
theorem follows_act {w w' : Worker} {store : Store} {sid : UInt64} {p : Packet} {a : Action}
    (h : Synced rng ⟨store, w, sid⟩) (hio : ∀ e ∈ w.io, Recorded w.game.trace e)
    (hsteps : Steps w.game.view (a.apply w.game).view) (hlog : (a.apply w.game).st.LogOk)
    (hends : Ends a (a.apply w.game) (onPacket (Session.ref ⟨store, w, sid⟩ rng) p))
    (hw : Answers (Worker.act { w with io := .got p :: w.io } a) w') :
    Follows rng ⟨store, w', sid⟩ := by
  have hpc : w'.pc = .save a w.game := by
    cases hw <;> rfl
  obtain ⟨hg, hm, hr⟩ := hw.frame
  change w'.game = a.apply w.game at hg
  have href : Session.ref ⟨store, w', sid⟩ rng = onPacket (Session.ref ⟨store, w, sid⟩ rng) p := by
    simp only [Session.ref, hr]
    change playout rng (received (.got p :: w.io)) = _
    rw [received_got, playout_append]
  have hreach : Reachable (a.apply w.game).view := h.reachable.steps hsteps
  refine ⟨?_, ?_⟩
  · unfold AtPc
    simp only [hpc]
    refine ⟨h.sid, hm.trans h.mine, h.stored.isSome, ?_, ?_, ?_⟩
    · rw [hg]
      exact hlog
    · rw [hg]
      exact hreach
    · rw [href, hg]
      exact hends
  · have hold : ∀ e ∈ Io.got p :: w.io, Recorded (a.apply w.game).trace e := by
      refine List.forall_mem_cons.mpr ⟨trivial, fun e he => ?_⟩
      exact (hio e he).mono hsteps.trace_suffix
    rw [hg]
    exact recorded_answers hw hreach hold

theorem phaseEnd_main (g : Match) (h : (phaseEnd g).st.aiDue) : (phaseEnd g).st.phase = .main := by
  rcases phaseEnd_result g with hover | ⟨_, hm, _⟩
  · exact absurd h.2 hover
  · exact hm

theorem follows_dispatch {w : Worker} (store : Store) (sid : UInt64) (p : Packet)
    (h : Synced rng ⟨store, w, sid⟩) (hio : ∀ e ∈ w.io, Recorded w.game.trace e) :
    Follows rng ⟨store, Worker.dispatch { w with io := .got p :: w.io } p, sid⟩ := by
  have hidle : Idle w.game.st.toCore := h.idle
  have hsteps := (onPacket_steps hidle p).1
  have hsame := onPacket_same h.same p
  rcases dispatch_cases { w with io := .got p :: w.io } p with
    ⟨w', hw, ha, hon⟩ | ⟨_, _, _, idx, hw, hon, _⟩ | ⟨hlive, hturn, hw, hon, _⟩
  · rw [hw]
    change onPacket w.game p = w.game at hon
    rw [hon] at hsame
    have href : Session.ref ⟨store, { w with io := .got p :: w.io }, sid⟩ rng =
        onPacket (Session.ref ⟨store, w, sid⟩ rng) p := by
      simp only [Session.ref]
      rw [received_got, playout_append]
    obtain ⟨st, hl, hc, hlog⟩ := h.stored
    have hg := h.same.symm.trans hsame
    refine follows_answer (w := { w with io := .got p :: w.io }) ?_ ?_ ha
    · refine ⟨h.sid, h.mine, ?_, h.log, ?_, ?_⟩
      · rw [href]
        exact hsame
      · rw [href]
        exact ⟨st, hg.hand ▸ hl, hc.trans hg.core, hlog⟩
      · rw [href]
        have hs := h.shown
        unfold Shown at hs ⊢
        rw [← hg.core, ← hg.hand]
        exact hs
    · exact List.forall_mem_cons.mpr ⟨trivial, hio⟩
  · change onPacket w.game p = playerPlay w.game idx at hon
    rw [hon] at hsteps hsame
    refine follows_act (a := .play idx) (p := p) h hio hsteps (handlePlayCard_log h.log _ _ _)
      hsame ?_
    rcases hw with hw | ⟨rc, hw⟩
    · rw [hw]
      exact .silent
    · rw [hw]
      exact .plain (playError_plain rc)
  · change w.game.st.gameOver = 0 at hlive
    change w.game.st.turn = 0 at hturn
    have hmain : w.game.st.phase = .main := by
      rcases hidle with hover | hm
      · exact absurd hlive hover
      · exact hm.2
    change onPacket w.game p = settle (phaseEnd w.game) at hon
    rw [hon] at hsame
    have hends : Ends .endTurn (phaseEnd w.game)
        (onPacket (Session.ref ⟨store, w, sid⟩ rng) p) := ⟨hsame, phaseEnd_main w.game⟩
    have hsteps : Steps w.game.view (phaseEnd w.game).view :=
      phaseEnd_steps (x := .player) hlive hmain hturn
    rw [hw]
    exact follows_act (a := .endTurn) (p := p) h hio hsteps (phaseEnd_log w.game) hends .silent

/-- Showing the table after the last save of a packet. -/
theorem follows_shown {w w' : Worker} {store : Store} {sid : UInt64} (hsid : sid ≠ 0)
    (hmine : w.mySid = sid) (hlog : w.game.st.LogOk)
    (hsame : w.game.Same (Session.ref ⟨store, w, sid⟩ rng))
    (hl : store.lookup sid = some (w.game.st, w.game.hand))
    (hio : ∀ e ∈ w'.io, Recorded w.game.trace e)
    (hw : w'.game = w.game ∧ w'.mySid = w.mySid ∧ received w'.io = received w.io) :
    Follows rng ⟨store, w'.sendTable.loopTop, sid⟩ := by
  obtain ⟨hg, hm, hr⟩ := hw
  have hreach := ref_reachable ⟨store, w, sid⟩ rng
  have hidle : Idle w'.sendTable.game.st.toCore := by
    change Idle w'.game.st.toCore
    rw [hg, hsame.core]
    exact hreach.2
  have href : Session.ref ⟨store, { w'.sendTable with pc := .recv }, sid⟩ rng =
      Session.ref ⟨store, w, sid⟩ rng := by
    simp only [Session.ref]
    change playout rng (received w'.io) = _
    rw [hr]
  rw [loopTop_idle hidle]
  refine ⟨⟨hsid, hm.trans hmine, ?_, ?_, ?_, ?_⟩, ?_⟩
  · rw [href]
    exact hg ▸ hsame
  · exact hg ▸ hlog
  · rw [href]
    exact ⟨w.game.st, by rw [hl, hsame.hand], hsame.core, hlog⟩
  · rw [href]
    have ht := shown_sendTable w'
    unfold Shown at ht ⊢
    rwa [hg, hsame.core, hsame.hand] at ht
  · change ∀ e ∈ w'.sendTable.io, Recorded w'.game.trace e
    have hr' : Reachable w'.game.view := by
      rw [hg, hsame.view]
      exact hreach.1
    exact recorded_answers .table hr' (hg ▸ hio)

theorem follows_save {s : Session} (h : Follows rng s) {a : Action} {base : Match}
    (hpc : s.worker.pc = .save a base) (env : AllocEnv) : Follows rng (s.step (.ipc env)) := by
  obtain ⟨hsid, hmine, hknown, hlog, hreach, hends⟩ := h.saving hpc
  obtain ⟨store, w, sid⟩ := s
  change w.pc = _ at hpc
  change sid ≠ 0 at hsid
  change w.mySid = sid at hmine
  change (store.lookup sid).isSome at hknown
  have hrc : (ipcSaveSession store w.mySid w.game.st w.game.hand env.seen).2 = 0 := by
    rw [save_rc, hmine, if_pos hknown]
  have hl : (ipcSaveSession store w.mySid w.game.st w.game.hand env.seen).1.lookup sid =
      some (w.game.st, w.game.hand) := by
    obtain ⟨r, hr⟩ := Option.isSome_iff_exists.mp hknown
    rw [hmine, lookup_save_same, hr]
    rfl
  have hrec : ∀ e ∈ Io.saved a w.game.st w.game.hand
      (ipcSaveSession store w.mySid w.game.st w.game.hand env.seen).2 :: w.io,
      Recorded w.game.trace e :=
    List.forall_mem_cons.mpr ⟨⟨hrc, fromTrace_view hreach⟩, h.record⟩
  simp only [Session.step, Worker.onIpc, hpc, if_neg hsid]
  generalize ipcSaveSession store w.mySid w.game.st w.game.hand env.seen = r at hrc hl hrec ⊢
  cases a with
  | login =>
    refine follows_shown (w := w) hsid hmine hlog hends hl ?_ ⟨rfl, rfl, rfl⟩
    exact List.forall_mem_cons.mpr ⟨trivial, List.forall_mem_cons.mpr ⟨trivial, hrec⟩⟩
  | play idx => exact follows_shown (w := w) hsid hmine hlog hends hl hrec ⟨rfl, rfl, rfl⟩
  | endTurn =>
    obtain ⟨hends, hmain⟩ := hends
    unfold Worker.afterSave
    by_cases hdue : w.game.st.aiDue
    · have hsettle : settle w.game = processAiTurn w.game := if_pos hdue
      have hsteps := processAiTurn_steps (hmain hdue) hdue.1
      rw [hsettle] at hends
      simp only [if_pos hdue]
      refine ⟨⟨hsid, hmine, ?_, processAiTurn_log hlog, hreach.steps hsteps, hends⟩, ?_⟩
      · change (r.1.lookup sid).isSome
        rw [hl]
        rfl
      · intro e he
        exact (hrec e he).mono hsteps.trace_suffix
    · have hsettle : settle w.game = w.game := if_neg hdue
      rw [hsettle] at hends
      simp only [if_neg hdue]
      exact follows_shown (w := w) hsid hmine hlog hends hl hrec ⟨rfl, rfl, rfl⟩
  | aiTurn top =>
    cases top with
    | true => exact hends.elim
    | false => exact follows_shown (w := w) hsid hmine hlog hends hl hrec ⟨rfl, rfl, rfl⟩

theorem follows_handshake (h : Follows rng s) (hpc : s.worker.pc = .handshake) (r : Option Packet)
    (hr : s.Allowed (.recv r)) : Follows rng (s.step (.recv r)) := by
  have hp := h.greeting (Or.inl hpc)
  have hclosed : Follows rng { s with worker := s.worker.close } := by
    refine ⟨?_, h.record⟩
    rcases hp with b | d
    · exact Or.inl ⟨b.sid, b.mine, Or.inl (congrArg Match.trace b.game)⟩
    · exact Or.inr ⟨d.sid, d.draws, d.trace, d.stored, d.shown⟩
  simp only [Session.Allowed, hpc] at hr
  simp only [Session.step, Worker.onRecv, hpc]
  cases r with
  | none => exact hclosed
  | some p =>
    simp only [Worker.greet]
    split
    · refine ⟨?_, List.forall_mem_cons.mpr ⟨trivial, h.record⟩⟩
      unfold AtPc
      simp only [Worker.send, hpc]
      rcases hp with b | d
      · exact Or.inl ⟨b.sid, b.mine, b.game, b.none⟩
      · exact Or.inr ⟨d.sid, d.draws, d.trace, d.stored, shown_plain ⟨rfl, rfl⟩ d.shown⟩
    · split
      · rename_i hlogin
        have hz := hr (by simpa [Pc.logsIn] using hlogin)
        rcases hp with b | d
        · refine ⟨⟨b.sid, b.mine, congrArg loginGame b.game, b.none⟩, ?_⟩
          intro e he
          refine (h.record e he).mono ?_
          rw [b.game]
          exact List.suffix_cons _ _
        · exact absurd hz d.sid
      · split
        · split
          · exact hclosed
          · refine ⟨?_, h.record⟩
            rcases hp with b | d
            · exact Or.inl ⟨b.sid, b.mine, b.game, b.none⟩
            · exact Or.inr ⟨d.sid, d.draws, d.trace, d.stored, d.shown⟩
        · exact h

theorem follows_alloc (h : Follows rng s) {base : Match} (hpc : s.worker.pc = .alloc base)
    (env : AllocEnv) : Follows rng (s.step (.ipc env)) := by
  obtain ⟨hsid, hmine, hgame, hnone⟩ : s.sid = 0 ∧ s.worker.mySid = 0 ∧
      s.worker.game = loginGame (origin rng) ∧ received s.worker.io = [] := by
    have hp := h.atPc
    unfold AtPc at hp
    simpa only [hpc] using hp
  have href : s.worker.game = s.ref rng := by
    rw [Session.ref, hnone]
    exact hgame
  simp only [Session.step, Worker.onIpc, hpc, hsid, if_true]
  split
  · have ht : Traced s.worker.game.trace :=
      Or.inr ⟨_, (ref_reachable s rng).1, congrArg Match.trace href.symm⟩
    exact ⟨Or.inl ⟨hmine, hmine, ht⟩, List.forall_mem_cons.mpr ⟨trivial, h.record⟩⟩
  · rename_i hz
    refine ⟨⟨hz, rfl, lookup_alloc_self s.store hz, ?_, ?_, ?_⟩, h.record⟩
    · change s.worker.game.st.LogOk
      rw [hgame]
      exact enterTurn_log _ _
    · change Reachable s.worker.game.view
      rw [href]
      exact (ref_reachable s rng).1
    · change s.worker.game.Same (s.ref rng)
      rw [← href]
      exact Match.Same.refl _

/-- A worker that resumes an idle match shows it and waits. -/
theorem attach_idle (w : Worker) (sid : UInt64) {st : State} (hand : Hand) (h : Idle st.toCore) :
    w.attach sid st hand =
      ⟨.recv, sid,
        { w.game with st := pushLog st (text "Player Resumed Session"), hand := hand },
        .sent (.hand hand) :: .sent (.state st) :: .sent (.resumeResp 1 sid) :: w.io⟩ := by
  simp only [Worker.attach]
  rw [loopTop_idle h]
  rfl

/-- Loading the session's own id finds the stored pair. -/
theorem step_resume (hpc : s.worker.pc = .load s.sid) (hz : s.sid ≠ 0) {st : State} {hand : Hand}
    (hl : s.store.lookup s.sid = some (st, hand)) (hi : Idle st.toCore) (env : AllocEnv) :
    ∃ store, store.lookup s.sid = s.store.lookup s.sid ∧
      s.step (.ipc env) = ⟨store, ⟨.recv, s.sid,
        { s.worker.game with st := pushLog st (text "Player Resumed Session"), hand := hand },
        .sent (.hand hand) :: .sent (.state st) :: .sent (.resumeResp 1 s.sid) :: s.worker.io⟩,
        s.sid⟩ := by
  have hfound := load_found _ _ s.worker.game.st s.worker.game.hand env.seen hl
  have hlook := lookup_load s.store s.sid s.sid s.worker.game.st s.worker.game.hand env.seen
  simp only [Session.step, Worker.onIpc, hpc]
  generalize ipcLoadSession s.store s.sid s.worker.game.st s.worker.game.hand env.seen = q
    at hfound hlook ⊢
  obtain ⟨store, rc, st', hand'⟩ := q
  simp only [Prod.mk.injEq] at hfound
  obtain ⟨rfl, rfl, rfl⟩ := hfound
  refine ⟨store, hlook, ?_⟩
  simp only [if_true, if_neg hz, attach_idle _ _ _ hi]

theorem follows_load (h : Follows rng s) {sid : UInt64} (hpc : s.worker.pc = .load sid)
    (env : AllocEnv) (hr : s.Allowed (.ipc env)) : Follows rng (s.step (.ipc env)) := by
  have hp := h.greeting (Or.inr ⟨sid, hpc⟩)
  simp only [Session.Allowed, hpc, Pc.loads, Option.toList_some, List.mem_singleton,
    forall_eq] at hr
  rcases hr with hno | ⟨rfl, hz⟩
  · simp only [Session.step, Worker.onIpc, hpc]
    rw [load_missing _ _ _ _ _ hno]
    have hrc : ¬ ((-1 : ℤ) = 0) := by decide
    simp only [if_neg hrc]
    refine ⟨?_, List.forall_mem_cons.mpr ⟨trivial, h.record⟩⟩
    rcases hp with b | d
    · have hsid : (if s.sid = 0 then s.worker.mySid else s.sid) = 0 := by
        rw [if_pos b.sid]
        exact b.mine
      exact Or.inl ⟨hsid, b.mine, b.game, b.none⟩
    · change AtPc rng ⟨_, _, if s.sid = 0 then s.worker.mySid else s.sid⟩
      rw [if_neg d.sid]
      exact Or.inr ⟨d.sid, d.draws, d.trace, d.stored, shown_plain ⟨rfl, rfl⟩ d.shown⟩
  · have d : Detached rng s := hp.resolve_left fun b => hz b.sid
    obtain ⟨st, hl, hc, hlog⟩ := d.stored
    have hreach := ref_reachable s rng
    obtain ⟨store, hlook, hstep⟩ := step_resume hpc hz hl (hc ▸ hreach.2) env
    rw [hstep]
    refine ⟨⟨hz, rfl, ?_, pushLog_logHead_lt _ _, ?_, ⟨congrArg some hc, rfl⟩⟩, ?_⟩
    · exact Match.same_of hc rfl d.trace d.draws
    · exact ⟨st, hlook.trans hl, hc, hlog⟩
    · refine List.forall_mem_cons.mpr ⟨trivial, List.forall_mem_cons.mpr ⟨?_,
        List.forall_mem_cons.mpr ⟨trivial, h.record⟩⟩⟩
      exact ⟨(s.ref rng).view, hreach.1, hc.symm, by rw [d.trace]; exact List.suffix_refl _⟩

/-- Without a login the worker has no id. -/
theorem Follows.unassigned (h : Follows rng s) (hz : s.sid = 0)
    (hpc : s.worker.pc = .handshake ∨ s.worker.pc = .recv ∨ s.worker.pc = .closed) :
    s.worker.mySid = 0 := by
  have hp := h.atPc
  unfold AtPc at hp
  rcases hpc with hpc | hpc | hpc
  · rw [hpc] at hp
    rcases hp with b | d
    · exact b.mine
    · exact absurd hz d.sid
  · rw [hpc] at hp
    exact hp.mine.trans hz
  · rw [hpc] at hp
    rcases hp with b | d
    · exact b.2.1
    · exact absurd hz d.sid

/-- The record of the plays is that of a match. -/
theorem Follows.traced (h : Follows rng s) : Traced s.worker.game.trace := by
  have hp := h.atPc
  have hd : Detached rng s → Traced s.worker.game.trace := fun d =>
    Or.inr ⟨_, (ref_reachable s rng).1, d.trace.symm⟩
  unfold AtPc at hp
  split at hp
  · rcases hp with b | d
    · exact Or.inl (congrArg Match.trace b.game)
    · exact hd d
  · rcases hp with b | d
    · exact Or.inl (congrArg Match.trace b.game)
    · exact hd d
  · obtain ⟨_, _, hgame, _⟩ := hp
    rw [hgame]
    exact Or.inr ⟨_, (playout_reachable rng []).1, rfl⟩
  · exact Or.inr ⟨_, hp.reach, rfl⟩
  · exact Or.inr ⟨_, hp.reachable, rfl⟩
  · exact Or.inr ⟨_, hp.reachable, rfl⟩
  · rcases hp with b | d
    · exact b.2.2
    · exact hd d

theorem follows_ipc (h : Follows rng s) (env : AllocEnv) (hr : s.Allowed (.ipc env)) :
    Follows rng (s.step (.ipc env)) := by
  cases hpc : s.worker.pc with
  | alloc base => exact follows_alloc h hpc env
  | load sid => exact follows_load h hpc env hr
  | save a base => exact follows_save h hpc env
  | touch p =>
    have hs := h.synced_touch hpc
    have hd := follows_dispatch s.store s.sid p hs h.record
    simp only [Session.step, Worker.onIpc, hpc, if_neg hs.sid]
    exact hd.frame fun _ => lookup_touch _ _ _ _
  | handshake | recv | closed =>
    have hsid : (if s.sid = 0 then s.worker.mySid else s.sid) = s.sid := by
      by_cases hz : s.sid = 0
      · rw [if_pos hz, hz]
        exact h.unassigned hz (by simp [hpc])
      · rw [if_neg hz]
    simp only [Session.step, Worker.onIpc, hpc, hsid]
    exact h

theorem follows_step (m : Move) (hm : s.Allowed m) (h : Follows rng s) :
    Follows rng (s.step m) := by
  cases m with
  | recv r =>
    cases hpc : s.worker.pc with
    | handshake => exact follows_handshake h hpc r hm
    | recv =>
      have hs := h.synced hpc
      cases r with
      | none =>
        simp only [Session.step, Worker.onRecv, hpc]
        exact ⟨Or.inr ⟨hs.sid, hs.same.rng, hs.same.trace, hs.stored, hs.shown⟩, h.record⟩
      | some p =>
        simp only [Session.step, Worker.onRecv, hpc]
        exact ⟨⟨hs.sid, hs.mine, hs.same, hs.log, hs.stored, hs.shown⟩, h.record⟩
    | _ =>
      simp only [Session.step, Worker.onRecv, hpc]
      exact h
  | ipc env => exact follows_ipc h env hm
  | reconnect =>
    have hd : Detached rng s := by
      have hp := h.atPc
      unfold AtPc at hp
      cases hpc : s.worker.pc with
      | closed =>
        simp only [hpc] at hp
        exact hp.resolve_left fun hz => hm.2 hz.1
      | _ =>
        have hex := hm.1
        simp [hpc, Pc.exited] at hex
    exact ⟨Or.inr ⟨hd.sid, hd.draws, hd.trace, hd.stored, hd.shown⟩, h.record⟩
  | other c =>
    refine h.frame fun hz => ?_
    have ha : Avoids s.store s.sid c := hm.resolve_left hz
    cases c with
    | alloc env => exact lookup_alloc_other s.store s.sid ha
    | save sid st hand now => exact lookup_save_other s.store sid s.sid st hand now (Ne.symm ha)
    | load sid st hand now => exact lookup_load s.store sid s.sid st hand now
    | touch sid now => exact lookup_touch s.store sid s.sid now

end Steps

theorem follows_start (rng : ℕ → ℕ) : Follows rng (Session.start rng) :=
  ⟨Or.inl ⟨rfl, rfl, rfl, rfl⟩, fun _ he => absurd he List.not_mem_nil⟩

/-- Every state of a single-worker run follows the playout of its packets. -/
theorem Single.follows {rng : ℕ → ℕ} {ms : List Move} (h : Single rng ms) :
    Follows rng (runSession rng ms) :=
  Run.invariant (fun _ m hm => follows_step m hm) (follows_start rng) h

end MiniTcg.Server
