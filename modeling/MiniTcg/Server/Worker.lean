import MiniTcg.Game.Playout
import MiniTcg.Ipc.Store

/-!
# One worker: `run_session`

A worker is forked for each connection. Its control points are the places where
it touches something shared: a `proto_recv`, and each `ipc_*_session` call. The
code between two control points is private to the process and is executed with
the one before it; `proto_send` only appends to what was sent. The return codes
of `ipc_save_session` and `ipc_touch_session` are ignored, as in the source.

What is recorded for the statements is never read by the code: the packets of
the main loop, the sends and the saves (`io`, newest first), and, at a pending
save, the action that produced the state to be saved and the match it started
from.
-/
namespace MiniTcg.Server

open MiniTcg.Game MiniTcg.Ipc MiniTcg.Wire

/-- What a worker does to its state before it saves it. -/
inductive Action
  | login
  | play (idx : UInt8)
  | endTurn
  | aiTurn (atTop : Bool)
  deriving DecidableEq

def Action.apply : Action → Match → Match
  | .login, g => loginGame g
  | .play idx, g => playerPlay g idx
  | .endTurn, g => phaseEnd g
  | .aiTurn _, g => processAiTurn g

/-- Control points: the two `proto_recv` calls, the `ipc` calls, and the exit. -/
inductive Pc
  | handshake
  | alloc (base : Match)
  | load (sid : UInt64)
  | save (act : Action) (base : Match)
  | recv
  | touch (p : Packet)
  | closed

/-- At one of the two `proto_recv` calls. -/
def Pc.listens : Pc → Bool
  | .handshake | .recv => true
  | _ => false

/-- In the handshake. -/
def Pc.greeting : Pc → Bool
  | .handshake | .alloc _ | .load _ => true
  | _ => false

/-- At `ipc_alloc_session`. -/
def Pc.allocates : Pc → Bool
  | .alloc _ => true
  | _ => false

inductive Io
  | got (p : Packet)
  | sent (m : Msg)
  | saved (act : Action) (st : State) (hand : Hand) (rc : ℤ)

structure Worker where
  pc : Pc
  mySid : UInt64
  game : Match
  io : List Io

/-- A worker at the top of `run_session`. -/
def Worker.init (rng : ℕ → ℕ) : Worker := ⟨.handshake, 0, origin rng, []⟩

def Worker.send (w : Worker) (m : Msg) : Worker := { w with io := .sent m :: w.io }

/-- The pair of packets that shows the client the game. -/
def Worker.sendTable (w : Worker) : Worker :=
  (w.send (.state w.game.st)).send (.hand w.game.hand)

def Worker.close (w : Worker) : Worker := { w with pc := .closed }

/-- Set the match to the result of an action and go to save it. -/
def Worker.act (w : Worker) (a : Action) : Worker :=
  { w with game := a.apply w.game, pc := .save a w.game }

/-- The head of the main loop. -/
def Worker.loopTop (w : Worker) : Worker :=
  if w.game.st.aiDue then w.act (.aiTurn true) else { w with pc := .recv }

/-- The error reply to a refused play. -/
def playError (rc : ℤ) : Msg :=
  if rc = -1 then .error (-1) "invalid hand idx"
  else if rc = -2 then .error (-2) "not enough mana"
  else .error (-3) "invalid card"

/-- The body of the main loop after `ipc_touch_session`. -/
def Worker.dispatch (w : Worker) (p : Packet) : Worker :=
  if p.op = opPing then (w.send .pong).loopTop
  else if w.game.st.gameOver ≠ 0 then w.sendTable.loopTop
  else if p.op = opPlayCard then
    if w.game.st.turn ≠ 0 then (w.send (.error (-11) "not your turn")).loopTop
    else if w.game.st.phase ≠ .main then (w.send (.error (-12) "phase error")).loopTop
    else
      match p.payload with
      | [idx] =>
        let rc := (handlePlayCard w.game.st w.game.hand .player idx).2
        let w := w.act (.play idx)
        if rc = 0 then w else w.send (playError rc)
      | _ => (w.send (.error (-10) "bad payload")).loopTop
  else if p.op = opEndTurn then
    if w.game.st.turn ≠ 0 then (w.send (.error (-11) "not your turn")).loopTop
    else w.act .endTurn
  else if p.op = opLoginReq ∨ p.op = opResumeReq then w.loopTop
  else (w.send (.error (-99) "unknown opcode")).loopTop

/-- One pass of the handshake loop with a received packet. -/
def Worker.greet (w : Worker) (p : Packet) : Worker :=
  if p.op = opPing then w.send .pong
  else if p.op = opLoginReq then { w with game := loginGame w.game, pc := .alloc w.game }
  else if p.op = opResumeReq then
    if p.payload.length < 8 then w.close else { w with pc := .load (sessionIdOf p.payload) }
  else w

/-- `proto_recv` returns a packet, or fails (`none`), at either loop. -/
def Worker.onRecv (w : Worker) (r : Option Packet) : Worker :=
  match w.pc, r with
  | .handshake, some p => w.greet p
  | .handshake, none => w.close
  | .recv, some p => { w with pc := .touch p }
  | .recv, none => w.close
  | _, _ => w

/-- What follows a save, by the place it was made at. -/
def Worker.afterSave (w : Worker) : Action → Worker
  | .login => ((w.send (.loginResp 1)).send (.resumeResp 1 w.mySid)).sendTable.loopTop
  | .play _ => w.sendTable.loopTop
  | .endTurn =>
    if w.game.st.aiDue then w.act (.aiTurn false) else w.sendTable.loopTop
  | .aiTurn false => w.sendTable.loopTop
  | .aiTurn true => { w with pc := .recv }

/-- A found session: reply with the loaded pair, then log the resume. -/
def Worker.attach (w : Worker) (sid : UInt64) (st : State) (hand : Hand) : Worker :=
  let w := { w with mySid := sid, game := { w.game with st := st, hand := hand } }
  let w := (w.send (.resumeResp 1 sid)).sendTable
  let st := pushLog st (text "Player Resumed Session")
  { w with game := { w.game with st := st } }.loopTop

/-- The worker performs its pending `ipc` call. -/
def Worker.onIpc (w : Worker) (s : Store) (env : AllocEnv) : Worker × Store :=
  match w.pc with
  | .alloc base =>
    let r := ipcAllocSession s env
    if r.2 = 0 then ((w.send (.error (-999) "server full")).close, r.1)
    else ({ w with mySid := r.2, pc := .save .login base }, r.1)
  | .load sid =>
    match ipcLoadSession s sid w.game.st w.game.hand env.seen with
    | (s, rc, st, hand) =>
      if rc = 0 then (w.attach sid st hand, s)
      else ({ w.send (.resumeResp 0 0) with pc := .handshake }, s)
  | .save a _ =>
    let r := ipcSaveSession s w.mySid w.game.st w.game.hand env.seen
    ({ w with io := .saved a w.game.st w.game.hand r.2 :: w.io }.afterSave a, r.1)
  | .touch p =>
    ({ w with io := .got p :: w.io }.dispatch p, (ipcTouchSession s w.mySid env.seen).1)
  | _ => (w, s)

/-! ### Reading the record -/

def Io.packet? : Io → Option Packet
  | .got p => some p
  | _ => none

def Io.state? : Io → Option State
  | .sent (.state st) => some st
  | _ => none

def Io.hand? : Io → Option Hand
  | .sent (.hand hand) => some hand
  | _ => none

/-- The packets of the main loop, oldest first. -/
def received (io : List Io) : List Packet := (io.filterMap Io.packet?).reverse

/-- The last `OP_STATE` and `OP_HAND` packets sent. -/
def lastState (io : List Io) : Option State := io.findSome? Io.state?
def lastHand (io : List Io) : Option Hand := io.findSome? Io.hand?

/-- The last table the client was shown is that of `g`, log aside. -/
def Shown (io : List Io) (g : Match) : Prop :=
  (lastState io).map (·.toCore) = some g.st.toCore ∧ lastHand io = some g.hand

/-- A packet that is neither a `OP_STATE` nor a `OP_HAND`. -/
def Msg.Plain (m : Msg) : Prop := (Io.sent m).state? = none ∧ (Io.sent m).hand? = none

theorem received_got (io : List Io) (p : Packet) :
    received (.got p :: io) = received io ++ [p] := by
  simp [received, Io.packet?]

theorem shown_sendTable (w : Worker) : Shown w.sendTable.io w.game := ⟨rfl, rfl⟩

/-! ### What a received packet leads to -/

/-- The first packet of an answer that does not act: nothing, one packet other
than the table, or the table. -/
inductive Answers (w : Worker) : Worker → Prop
  | silent : Answers w w
  | plain {m : Msg} (h : Msg.Plain m) : Answers w (w.send m)
  | table : Answers w w.sendTable

theorem playError_plain (rc : ℤ) : Msg.Plain (playError rc) := by
  unfold playError
  split
  · exact ⟨rfl, rfl⟩
  · split <;> exact ⟨rfl, rfl⟩

/-- A packet is answered at once and leaves the match, or is a play, or ends the
turn; `onPacket` says what it leads to. -/
theorem dispatch_cases (w : Worker) (p : Packet) :
    (∃ w', w.dispatch p = w'.loopTop ∧ Answers w w' ∧ onPacket w.game p = w.game) ∨
    (w.game.st.gameOver = 0 ∧ w.game.st.turn = 0 ∧ w.game.st.phase = .main ∧
      ∃ idx, (w.dispatch p = w.act (.play idx) ∨
        ∃ rc, w.dispatch p = (w.act (.play idx)).send (playError rc)) ∧
        onPacket w.game p = playerPlay w.game idx ∧ p = ⟨opPlayCard, [idx]⟩) ∨
    (w.game.st.gameOver = 0 ∧ w.game.st.turn = 0 ∧ w.dispatch p = w.act .endTurn ∧
      onPacket w.game p = fullTurn w.game ∧ p.op = opEndTurn) := by
  obtain ⟨op, payload⟩ := p
  unfold Worker.dispatch onPacket
  by_cases hping : op = opPing
  · simp only [hping, if_true, true_or]
    exact Or.inl ⟨_, rfl, .plain ⟨rfl, rfl⟩, trivial⟩
  by_cases hover : w.game.st.gameOver = 0
  swap
  · simp only [hping, hover, if_false, if_true, false_or, true_or, not_false_eq_true, ne_eq]
    exact Or.inl ⟨_, rfl, .table, trivial⟩
  by_cases hturn : w.game.st.turn = 0
  swap
  · simp only [hping, hover, hturn, if_false, if_true, false_or, ne_eq, not_true_eq_false,
      not_false_eq_true]
    refine Or.inl ?_
    split
    · exact ⟨_, rfl, .plain ⟨rfl, rfl⟩, trivial⟩
    · split
      · exact ⟨_, rfl, .plain ⟨rfl, rfl⟩, trivial⟩
      · split
        · exact ⟨_, rfl, .silent, trivial⟩
        · exact ⟨_, rfl, .plain ⟨rfl, rfl⟩, trivial⟩
  simp only [hping, hover, hturn, if_false, false_or, ne_eq, not_true_eq_false]
  by_cases hplay : op = opPlayCard
  · simp only [hplay, if_true]
    by_cases hmain : w.game.st.phase = .main
    · simp only [hmain, if_true, not_true_eq_false, if_false]
      rcases payload with _ | ⟨idx, _ | ⟨_, _⟩⟩
      · exact Or.inl ⟨_, rfl, .plain ⟨rfl, rfl⟩, rfl⟩
      · refine Or.inr (Or.inl ⟨trivial, trivial, trivial, idx, ?_, rfl, rfl⟩)
        by_cases hrc : (handlePlayCard w.game.st w.game.hand .player idx).2 = 0
        · exact Or.inl (if_pos hrc)
        · exact Or.inr ⟨_, if_neg hrc⟩
      · exact Or.inl ⟨_, rfl, .plain ⟨rfl, rfl⟩, rfl⟩
    · refine Or.inl ⟨_, if_pos hmain, .plain ⟨rfl, rfl⟩, ?_⟩
      split
      · exact if_neg hmain
      · rfl
  · simp only [hplay, if_false]
    split
    · rename_i hend
      exact Or.inr (Or.inr ⟨trivial, trivial, rfl, rfl, hend⟩)
    · refine Or.inl ?_
      split
      · exact ⟨_, rfl, .silent, rfl⟩
      · exact ⟨_, rfl, .plain ⟨rfl, rfl⟩, rfl⟩

/-! ### The record only grows -/

theorem loopTop_io (w : Worker) : w.loopTop.io = w.io := by
  unfold Worker.loopTop
  split <;> rfl

theorem Answers.io_suffix {w w' : Worker} (h : Answers w w') : w.io <:+ w'.io := by
  cases h with
  | silent => exact List.suffix_refl _
  | plain => exact List.suffix_cons _ _
  | table => exact ⟨[_, _], rfl⟩

theorem dispatch_io (w : Worker) (p : Packet) : w.io <:+ (w.dispatch p).io := by
  rcases dispatch_cases w p with ⟨w', hw, ha, _⟩ | ⟨_, _, _, idx, hw, _, _⟩ | ⟨_, _, hw, _, _⟩
  · rw [hw, loopTop_io]
    exact ha.io_suffix
  · rcases hw with hw | ⟨rc, hw⟩
    · rw [hw]
      exact List.suffix_refl _
    · rw [hw]
      exact List.suffix_cons _ _
  · rw [hw]
    exact List.suffix_refl _

theorem afterSave_io (w : Worker) (a : Action) : w.io <:+ (w.afterSave a).io := by
  cases a with
  | login =>
    rw [Worker.afterSave, loopTop_io]
    exact ⟨[_, _, _, _], rfl⟩
  | play idx =>
    rw [Worker.afterSave, loopTop_io]
    exact ⟨[_, _], rfl⟩
  | endTurn =>
    rw [Worker.afterSave]
    split
    · exact List.suffix_refl _
    · rw [loopTop_io]
      exact ⟨[_, _], rfl⟩
  | aiTurn top =>
    cases top with
    | false =>
      rw [Worker.afterSave, loopTop_io]
      exact ⟨[_, _], rfl⟩
    | true => exact List.suffix_refl _

theorem attach_io (w : Worker) (sid : UInt64) (st : State) (hand : Hand) :
    w.io <:+ (w.attach sid st hand).io := by
  simp only [Worker.attach]
  rw [loopTop_io]
  exact ⟨[_, _, _], rfl⟩

theorem onRecv_io (w : Worker) (r : Option Packet) : w.io <:+ (w.onRecv r).io := by
  unfold Worker.onRecv
  split
  · unfold Worker.greet
    split
    · exact List.suffix_cons _ _
    · split
      · exact List.suffix_refl _
      · split
        · split <;> exact List.suffix_refl _
        · exact List.suffix_refl _
  all_goals exact List.suffix_refl _

theorem onIpc_io (w : Worker) (s : Store) (env : AllocEnv) : w.io <:+ (w.onIpc s env).1.io := by
  unfold Worker.onIpc
  split
  · simp only
    split
    · exact List.suffix_cons _ _
    · exact List.suffix_refl _
  · simp only
    split
    · exact attach_io _ _ _ _
    · exact List.suffix_cons _ _
  · refine List.IsSuffix.trans ?_ (afterSave_io _ _)
    exact List.suffix_cons _ _
  · refine List.IsSuffix.trans ?_ (dispatch_io _ _)
    exact List.suffix_cons _ _
  · exact List.suffix_refl _

theorem received_mono {io io' : List Io} (h : io <:+ io') : received io <+: received io' := by
  obtain ⟨l, rfl⟩ := h
  unfold received
  rw [List.filterMap_append, List.reverse_append]
  exact List.prefix_append _ _

end MiniTcg.Server
