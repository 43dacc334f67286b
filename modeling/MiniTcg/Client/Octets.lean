import MiniTcg.Client.Bench
import MiniTcg.Client.Console
import MiniTcg.Client.Gui
import MiniTcg.Server.Sends
import MiniTcg.Wire.Flow
import MiniTcg.Wire.Layout

/-!
# A connection in bytes

The connection of `Link` carries packets and messages. Here it carries bytes: both
ends call `proto_send` and `proto_recv`, the clients look at opcodes and lengths and
copy the records out of their buffers. However the transport splits the bytes, the
two behave alike.
-/
namespace MiniTcg.Client

open MiniTcg.Game MiniTcg.Ipc MiniTcg.Wire MiniTcg.Server

/-! ### The clients on packets

A record is copied only when the length fits. A state with a phase byte that is
none of `phase_t` has no counterpart in the model; no server sends one. -/

/-- The rest of a pass of `recv_until`. -/
def Console.seen (c : Console) (gotState gotHand : Bool) : Console × List Packet :=
  ({ c with pc := if gotState && gotHand then .keys else .waiting gotState gotHand }, [])

/-- One pass of `recv_until` with the packet it received. -/
def Console.takePacket (c : Console) (p : Packet) : Console × List Packet :=
  match c.pc with
  | .waiting gotState gotHand =>
    if p.op = opState ∧ p.payload.length = stateT.size then
      match stateT.get p.payload with
      | some st => { c with st := st }.seen true gotHand
      | none => (c, [])
    else if p.op = opHand ∧ p.payload.length = handT.size then
      match handT.get p.payload with
      | some hand => { c with hand := hand }.seen gotState true
      | none => (c, [])
    else c.seen gotState gotHand
  | _ => (c, [])

def Bench.untilOp (b : Bench) (op : UInt16) : Bench × List Packet :=
  if op = opState then b.round 0 else (b.goto .login, [])

/-- One pass of a wait loop: a state counts whatever its length, but only a whole one
can end the run. -/
def Bench.waitPacket (b : Bench) (seenState seenHand : Bool) (again : Bool → Bool → BenchPc)
    (next : Bench × List Packet) (p : Packet) : Bench × List Packet :=
  if p.op = opState then
    if p.payload.length = stateT.size ∧ b.idx = 0 ∧
        ((stateT.get p.payload).map (·.gameOver)).getD 0 ≠ 0 then (b.goto .done, [])
    else if seenHand then next
    else (b.goto (again true seenHand), [])
  else if p.op = opHand then
    if seenState then next else (b.goto (again seenState true), [])
  else (b.goto (again seenState seenHand), [])

def Bench.takePacket (b : Bench) (p : Packet) : Bench × List Packet :=
  match b.pc with
  | .first => if p.op = opLoginResp then (b.goto .login, []) else b.untilOp p.op
  | .login => b.untilOp p.op
  | .play i seenState seenHand => b.waitPacket seenState seenHand (.play i) (b.endTurn i) p
  | .ending i seenState seenHand => b.waitPacket seenState seenHand (.ending i) (b.round (i + 1)) p
  | .done => (b, [])

/-- The socket branch of the receive loop of `net_thread`. -/
def Gui.takePacket (c : Gui) (p : Packet) : Gui :=
  if p.op = opPong then c
  else if p.op = opResumeResp then
    match resumeRespT.get (p.payload.take resumeRespT.size) with
    | some (ok, _) => if resumeRespT.size ≤ p.payload.length ∧ ok = 0 then c.drop else c
    | none => c
  else if p.op = opLoginResp then c
  else if p.op = opState ∧ p.payload.length = stateT.size then
    match stateT.get p.payload with
    | some st => { c with shared := { c.shared with st := st, hasState := true, connected := true } }
    | none => c
  else if p.op = opHand ∧ p.payload.length = handT.size then
    match handT.get p.payload with
    | some hand =>
      { c with shared := { c.shared with hand := hand, hasHand := true, hands := c.shared.hands + 1 } }
    | none => c
  else c

/-! ### What the server puts into its messages -/

/-- The `ok` fields are 0 or 1. -/
def Fits : Msg → Prop
  | .loginResp ok => ok = 1
  | .resumeResp ok _ => ok = 0 ∨ ok = 1
  | _ => True

theorem payload_length (m : Msg) : m.packet.payload.length = payloadSize m := by
  cases m with
  | loginResp ok => exact loginRespT.put_length _
  | resumeResp ok sid => exact resumeRespT.put_length _
  | pong => rfl
  | state st => exact (stateT.put_length _).trans stateT_size
  | hand h => exact (handT.put_length _).trans handT_size
  | error code msg => exact (errorT.put_length _).trans errorT_size

/-! ### The clients on packets and on messages -/

theorem console_packet (c : Console) (m : Msg) : c.takePacket m.packet = c.take m := by
  obtain ⟨pc, st, hand⟩ := c
  cases pc with
  | waiting gotState gotHand =>
    cases m with
    | state st' =>
      simp only [Console.takePacket, Msg.packet]
      rw [if_pos ⟨trivial, stateT.put_length st'⟩, stateT.get_put]
      rfl
    | hand hand' =>
      have hop : ¬ (opHand = opState ∧ (handT.put hand').length = stateT.size) :=
        fun h => absurd h.1 (by decide)
      simp only [Console.takePacket, Msg.packet]
      rw [if_neg hop, if_pos ⟨trivial, handT.put_length hand'⟩, handT.get_put]
      rfl
    | loginResp ok => rfl
    | resumeResp ok sid => rfl
    | pong => rfl
    | error code msg => rfl
  | keys => rfl
  | closed => rfl

theorem bench_waitPacket (b : Bench) (seenState seenHand : Bool) (again : Bool → Bool → BenchPc)
    (next : Bench × List Packet) (m : Msg) :
    b.waitPacket seenState seenHand again next m.packet =
      b.wait seenState seenHand again next m := by
  cases m with
  | state st =>
    have hwhole : ((stateT.put st).length = stateT.size ∧ b.idx = 0 ∧
        ((stateT.get (stateT.put st)).map (·.gameOver)).getD 0 ≠ 0) ↔
          (b.idx = 0 ∧ st.gameOver ≠ 0) := by
      rw [stateT.get_put]
      exact ⟨fun h => h.2, fun h => ⟨stateT.put_length st, h⟩⟩
    simp only [Bench.waitPacket, Bench.wait, Msg.packet, if_true, hwhole]
  | hand h =>
    have hop : ¬ opHand = opState := by decide
    simp only [Bench.waitPacket, Bench.wait, Msg.packet, if_neg hop, if_true]
  | loginResp ok => rfl
  | resumeResp ok sid => rfl
  | pong => rfl
  | error code msg => rfl

theorem bench_packet (b : Bench) (m : Msg) : b.takePacket m.packet = b.take m := by
  have huntil : b.untilOp m.packet.op = b.untilState m := by
    cases m <;> rfl
  obtain ⟨idx, rounds, pc⟩ := b
  cases pc with
  | first =>
    cases m with
    | loginResp ok => rfl
    | resumeResp ok sid => rfl
    | pong => rfl
    | state st => rfl
    | hand h => rfl
    | error code msg => rfl
  | login => exact huntil
  | play i seenState seenHand => exact bench_waitPacket _ _ _ _ _ m
  | ending i seenState seenHand => exact bench_waitPacket _ _ _ _ _ m
  | done => rfl

theorem gui_packet (c : Gui) {m : Msg} (h : Fits m) : c.takePacket m.packet = c.take m := by
  cases m with
  | resumeResp ok sid =>
    have hop : ¬ opResumeResp = opPong := by decide
    have hlen : (resumeRespT.put (Int32.ofInt ok, sid)).length = resumeRespT.size :=
      resumeRespT.put_length _
    have hok : (resumeRespT.size ≤ (resumeRespT.put (Int32.ofInt ok, sid)).length ∧
        Int32.ofInt ok = 0) ↔ ok = 0 := by
      rw [hlen]
      rcases h with rfl | rfl
      · exact iff_of_true ⟨Nat.le_refl _, rfl⟩ rfl
      · exact iff_of_false (fun hz => absurd hz.2 (by decide)) (by decide)
    have htake : (resumeRespT.put (Int32.ofInt ok, sid)).take resumeRespT.size =
        resumeRespT.put (Int32.ofInt ok, sid) := List.take_of_length_le (Nat.le_of_eq hlen)
    simp only [Gui.takePacket, Gui.take, Msg.packet, if_neg hop, if_true, htake,
      resumeRespT.get_put, hok]
  | state st =>
    have hpong : ¬ opState = opPong := by decide
    have hresume : ¬ opState = opResumeResp := by decide
    have hlogin : ¬ opState = opLoginResp := by decide
    simp only [Gui.takePacket, Gui.take, Msg.packet, if_neg hpong, if_neg hresume, if_neg hlogin]
    rw [if_pos ⟨trivial, stateT.put_length st⟩, stateT.get_put]
  | hand hand =>
    have hpong : ¬ opHand = opPong := by decide
    have hresume : ¬ opHand = opResumeResp := by decide
    have hlogin : ¬ opHand = opLoginResp := by decide
    have hstate : ¬ (opHand = opState ∧ (handT.put hand).length = stateT.size) :=
      fun h => absurd h.1 (by decide)
    simp only [Gui.takePacket, Gui.take, Msg.packet, if_neg hpong, if_neg hresume, if_neg hlogin]
    rw [if_neg hstate, if_pos ⟨trivial, handT.put_length hand⟩, handT.get_put]
  | loginResp ok => rfl
  | pong => rfl
  | error code msg => rfl

/-! ### What the server sends fits -/

theorem fits_plain (m : Msg) (h : Msg.greets m = false) : Fits m := by
  cases m with
  | loginResp ok => cases h
  | resumeResp ok sid => cases h
  | pong => trivial
  | state st => trivial
  | hand hand => trivial
  | error code msg => trivial

theorem sends_onRecv {w : Worker} (h : Sends Fits w.io) (r : Option Packet) :
    Sends Fits (w.onRecv r).io := h.onRecv fits_plain r

theorem sends_onIpc {w : Worker} (h : Sends Fits w.io) (s : Store) (env : AllocEnv) :
    Sends Fits (w.onIpc s env).1.io :=
  h.onIpc fits_plain s env (fun _ _ => ⟨rfl, Or.inr rfl⟩) (fun _ _ _ => Or.inr rfl)
    (fun _ _ _ => Or.inl rfl)

/-! ### Both ends in bytes -/

section Octets
variable {γ κ : Type}

/-- A program that reads packets the way `P` reads messages; `agrees` says so for the
messages a server sends. -/
structure Reader (P : Program γ κ) where
  cap : UInt32
  take : γ → Packet → γ × List Packet
  cap_eq : cap.toNat = P.cap
  room : 405 ≤ P.cap
  agrees : ∀ c m, Fits m → take c m.packet = P.take c m
  react_short : ∀ c k, Short (P.react c k).2
  take_short : ∀ c m, Short (P.take c m).2
  lost_short : ∀ c, Short (P.lost c).2

structure Octets (γ : Type) where
  store : Store
  worker : Worker
  client : γ
  up : Flow
  down : Flow

/-- A move of the link, with how the transport splits what it writes and reads, or
bytes that arrive at the worker or at the client. -/
inductive OctetMove (κ : Type)
  | act (m : LinkMove κ) (chunks : ℕ → ℕ)
  | arriveUp (n : ℕ)
  | arriveDown (n : ℕ)

def OctetMove.act? : OctetMove κ → Option (LinkMove κ)
  | .act m _ => some m
  | _ => none

/-- The client goes on as `r` says and sends its packets. -/
def Octets.put (tls : Bool) (chunks : ℕ → ℕ) (s : Octets γ) (r : γ × List Packet) : Octets γ :=
  { s with client := r.1, up := s.up.send tls chunks r.2 }

/-- The worker goes on and sends its messages. -/
def Octets.work (tls : Bool) (chunks : ℕ → ℕ) (s : Octets γ) (w : Worker) (store : Store)
    (up : Flow) : Octets γ :=
  { s with
    worker := w
    store := store
    up := up
    down := s.down.send tls chunks
      (((sent w.io).drop (sent s.worker.io).length).map Msg.packet) }

def Octets.step {P : Program γ κ} (R : Reader P) (tls : Bool) (s : Octets γ) :
    OctetMove κ → Octets γ
  | .act (.input k) chunks => s.put tls chunks (P.react s.client k)
  | .act .take chunks =>
    if P.waits s.client then
      match s.down.recv tls chunks R.cap with
      | some (some p, down) => { s with down := down }.put tls chunks (R.take s.client p)
      | some (none, down) => { s with down := down }.put tls chunks (P.lost s.client)
      | none => s
    else s
  | .act .lost chunks => if P.waits s.client then s.put tls chunks (P.lost s.client) else s
  | .act (.serve env) chunks =>
    if s.worker.pc.listens then
      match s.up.recv tls chunks 1024 with
      | some (r, up) => s.work tls chunks (s.worker.onRecv r) s.store up
      | none =>
        -- the end of the stream comes behind its last byte
        if P.closed s.client ∧ s.up.coming = [] then
          s.work tls chunks (s.worker.onRecv none) s.store ⟨[], []⟩
        else s
    else s.work tls chunks (s.worker.onIpc s.store env).1 (s.worker.onIpc s.store env).2 s.up
  | .act (.other c) _ => { s with store := (s.store.call c).1 }
  | .arriveUp n => { s with up := s.up.arrive n }
  | .arriveDown n => { s with down := s.down.arrive n }

/-- A `proto_recv` that waits for more bytes, or bytes that arrive. -/
def Octets.idles {P : Program γ κ} (R : Reader P) (s : Octets γ) : OctetMove κ → Prop
  | .act .take _ => ¬ s.down.full R.cap
  | .act (.serve _) _ =>
    s.worker.pc.listens = true ∧ ¬ s.up.full 1024 ∧ ¬ (P.closed s.client = true ∧ s.up.coming = [])
  | .act _ _ => False
  | .arriveUp _ => True
  | .arriveDown _ => True

instance {P : Program γ κ} (R : Reader P) (s : Octets γ) : (m : OctetMove κ) → Decidable (s.idles R m)
  | .act .take _ => inferInstanceAs (Decidable (¬ _))
  | .act (.serve _) _ => inferInstanceAs (Decidable (_ ∧ _))
  | .act (.input _) _ => isFalse id
  | .act .lost _ => isFalse id
  | .act (.other _) _ => isFalse id
  | .arriveUp _ => isTrue trivial
  | .arriveDown _ => isTrue trivial

/-- The move of the link that a move is, unless it idles. -/
def Octets.made? {P : Program γ κ} (R : Reader P) (s : Octets γ) (m : OctetMove κ) :
    Option (LinkMove κ) :=
  if s.idles R m then none else m.act?

/-- The moves of the link that a run makes. -/
def Octets.made {P : Program γ κ} (R : Reader P) (tls : Bool) (s : Octets γ) :
    List (OctetMove κ) → List (LinkMove κ)
  | [] => []
  | m :: ms => (s.made? R m).toList ++ (s.step R tls m).made R tls ms

/-- A client that has just sent its login. -/
def Octets.start (store : Store) (rng : ℕ → ℕ) (c : γ) : Octets γ :=
  ⟨store, Worker.init rng, c, ⟨[], loginPacket.frame⟩, ⟨[], []⟩⟩

/-- The bytes of `s` are the packets and messages of `l`. -/
structure Carries (s : Octets γ) (l : Link γ) : Prop where
  store : s.store = l.store
  worker : s.worker = l.worker
  client : s.client = l.client
  up : s.up.Holds l.up
  down : s.down.Holds (l.down.map Msg.packet)
  short : Short l.up
  fits : ∀ m ∈ l.down, Fits m
  sent : Sends Fits l.worker.io

theorem carries_start (store : Store) (rng : ℕ → ℕ) (c : γ) :
    Carries (Octets.start store rng c) (Link.start store rng c) where
  store := rfl
  worker := rfl
  client := rfl
  up := by
    show [] ++ loginPacket.frame = [loginPacket].flatMap Packet.frame
    rw [List.flatMap_singleton, List.nil_append]
  down := rfl
  short := List.forall_mem_singleton.mpr (Nat.zero_le _)
  fits := List.forall_mem_nil _
  sent m hm := absurd hm List.not_mem_nil

section Step
variable {P : Program γ κ} {s : Octets γ} {l : Link γ} {tls : Bool} {chunks : ℕ → ℕ}

theorem Carries.put (h : Carries s l) {r : γ × List Packet} (hr : Short r.2) :
    Carries (s.put tls chunks r) (l.put r) :=
  ⟨h.store, h.worker, rfl, h.up.send hr tls chunks, h.down, h.short.append hr, h.fits, h.sent⟩

theorem Carries.work (h : Carries s l) {w : Worker} (store : Store) {up : Flow}
    {ups : List Packet} (hup : up.Holds ups) (hshort : Short ups) (hfit : Sends Fits w.io) :
    Carries (s.work tls chunks w store up)
      { l with
        worker := w
        store := store
        up := ups
        down := l.down ++ (Server.sent w.io).drop (Server.sent l.worker.io).length } := by
  have hnew : ∀ m ∈ (Server.sent w.io).drop (Server.sent l.worker.io).length, Fits m :=
    fun m hm => hfit m (mem_sent.mp (List.mem_of_mem_drop hm))
  have hpackets : ∀ ms : List Msg, Short (ms.map Msg.packet) := by
    intro ms p hp
    obtain ⟨m, _, rfl⟩ := List.mem_map.mp hp
    rw [payload_length]
    exact (payload_le m).trans (by omega)
  refine ⟨rfl, rfl, h.client, hup, ?_, hshort, ?_, hfit⟩
  · rw [List.map_append]
    simp only [Octets.work, h.worker]
    exact h.down.send (hpackets _) tls chunks
  · intro m hm
    rcases List.mem_append.mp hm with hold | hm
    · exact h.fits m hold
    · exact hnew m hm

/-- A message always fits the buffer of a client. -/
theorem Reader.hears (R : Reader P) (c : γ) {m : Msg} (hm : Fits m) :
    R.take c m.packet = P.hears c m :=
  (R.agrees c m hm).trans (if_pos ((payload_le m).trans R.room)).symm

theorem Carries.down_fits (h : Carries s l) (R : Reader P) {m : Msg} {ms : List Msg}
    (hd : l.down = m :: ms) :
    s.down.Holds (m.packet :: ms.map Msg.packet) ∧ Fits m ∧
      m.packet.payload.length ≤ min R.cap.toNat 4088 := by
  have hdown := h.down
  rw [hd, List.map_cons] at hdown
  refine ⟨hdown, h.fits m (by rw [hd]; exact List.mem_cons_self), ?_⟩
  have hle := payload_le m
  have hroom := R.room
  rw [payload_length, R.cap_eq]
  omega

theorem Carries.up_fits (h : Carries s l) {p : Packet} {ps : List Packet} (hu : l.up = p :: ps) :
    s.up.Holds (p :: ps) ∧ p.payload.length ≤ min (1024 : UInt32).toNat 4088 := by
  have hup := h.up
  rw [hu] at hup
  refine ⟨hup, ?_⟩
  have hp : p.payload.length ≤ 1024 := h.short p (by rw [hu]; exact List.mem_cons_self)
  show p.payload.length ≤ min 1024 4088
  omega

/-- A `proto_recv` that waits for more bytes changes nothing. -/
theorem idles_act (R : Reader P) {a : LinkMove κ} (h : s.idles R (.act a chunks)) :
    s.step R tls (.act a chunks) = s := by
  cases a with
  | input k => exact h.elim
  | lost => exact h.elim
  | other c => exact h.elim
  | take =>
    rw [Octets.step, (s.down.recv_none tls chunks).mpr h]
    split <;> rfl
  | serve env =>
    obtain ⟨hlisten, hwait, hopen⟩ := h
    rw [Octets.step, if_pos hlisten, (s.up.recv_none tls chunks).mpr hwait]
    exact if_neg hopen

/-- The client receives what it has all bytes of. -/
theorem Carries.take (h : Carries s l) (R : Reader P) (hfull : s.down.full R.cap) :
    Carries (s.step R tls (.act .take chunks)) (l.step P .take) := by
  have hclient := h.client
  by_cases hwaits : P.waits l.client = true
  · simp only [Octets.step, hclient, hwaits, if_true]
    cases hd : l.down with
    | nil =>
      have hnil : s.down.Holds [] := by
        have hdown := h.down
        rwa [hd] at hdown
      exact absurd hfull ((s.down.recv_none tls chunks).mp (hnil.recv_nil tls chunks))
    | cons m ms =>
      obtain ⟨hdown, hm, hsize⟩ := h.down_fits R hd
      rcases hdown.recv hsize tls chunks with ⟨hnone, _⟩ | ⟨down, hsome, hrest⟩
      · exact absurd hfull ((s.down.recv_none tls chunks).mp hnone)
      · have hread : Carries { s with down := down }
            { l with down := ms, talk := l.talk.hear m } :=
          ⟨h.store, h.worker, h.client, h.up, hrest, h.short,
            fun m' hm' => h.fits m' (by rw [hd]; exact List.mem_cons_of_mem _ hm'), h.sent⟩
        have hshort : Short (P.hears l.client m).2 := by
          rw [← R.hears l.client hm, R.agrees l.client m hm]
          exact R.take_short _ _
        simp only [hsome, Link.step, hwaits, hd]
        rw [R.hears l.client hm]
        exact hread.put hshort
  · simp only [Octets.step, Link.step, hclient, hwaits]
    exact h

/-- The worker receives what it has all bytes of, learns that the client is gone, or
makes its call. -/
theorem Carries.serve (h : Carries s l) (R : Reader P) {env : AllocEnv}
    (hbusy : ¬ s.idles R (.act (.serve env) chunks)) :
    Carries (s.step R tls (.act (.serve env) chunks)) (l.step P (.serve env)) := by
  have hworker := h.worker
  have hclient := h.client
  by_cases hlisten : l.worker.pc.listens = true
  · have hready : s.up.recv tls chunks 1024 = none → P.closed l.client = true ∧ s.up.coming = [] := by
      intro hnone
      by_contra hopen
      refine hbusy ⟨hworker ▸ hlisten, (s.up.recv_none tls chunks).mp hnone, ?_⟩
      rw [hclient]
      exact hopen
    simp only [Octets.step, hworker, hclient, hlisten, if_true]
    cases hu : l.up with
    | nil =>
      have hnil : s.up.Holds [] := by
        have hup := h.up
        rwa [hu] at hup
      have hnone : s.up.recv tls chunks 1024 = none := hnil.recv_nil tls chunks
      have hgone := hready hnone
      have hempty : Flow.Holds ⟨[], []⟩ [] := rfl
      rw [hnone]
      simp only [Link.step, serveStep, hlisten, if_true, hu, hgone.1, hgone.2, and_self, h.store]
      exact h.work l.store hempty (List.forall_mem_nil _) (sends_onRecv h.sent none)
    | cons p ps =>
      obtain ⟨hup, hsize⟩ := h.up_fits hu
      have hps : Short ps := fun q hq => h.short q (by rw [hu]; exact List.mem_cons_of_mem _ hq)
      rcases hup.recv hsize tls chunks with ⟨hnone, hcoming⟩ | ⟨up, hsome, hrest⟩
      · exact absurd (hready hnone).2 hcoming
      · simp only [hsome, Link.step, serveStep, hlisten, if_true, hu, h.store]
        exact h.work l.store hrest hps (sends_onRecv h.sent (some p))
  · simp only [Octets.step, Link.step, serveStep, hworker, hlisten, h.store]
    exact h.work _ h.up h.short (sends_onIpc h.sent l.store env)

/-- A move of the link on bytes, unless it idles, is that move on packets. -/
theorem Carries.act (h : Carries s l) (R : Reader P) {a : LinkMove κ}
    (hbusy : ¬ s.idles R (.act a chunks)) :
    Carries (s.step R tls (.act a chunks)) (l.step P a) := by
  cases a with
  | input k =>
    simp only [Octets.step, Link.step, h.client]
    exact h.put (R.react_short _ _)
  | take => exact h.take R (not_not.mp hbusy)
  | lost =>
    simp only [Octets.step, Link.step, h.client]
    split
    · exact h.put (R.lost_short _)
    · exact h
  | serve env => exact h.serve R hbusy
  | other c =>
    simp only [Octets.step, Link.step, h.store]
    exact ⟨rfl, h.worker, h.client, h.up, h.down, h.short, h.fits, h.sent⟩

/-- A step on bytes is its step on packets, or idles. -/
theorem Carries.step (h : Carries s l) (R : Reader P) (m : OctetMove κ) :
    Carries (s.step R tls m) ((s.made? R m).toList.foldl (Link.step P) l) := by
  cases m with
  | act a chunks =>
    by_cases hidle : s.idles R (.act a chunks)
    · rw [Octets.made?, if_pos hidle, idles_act R hidle]
      exact h
    · rw [Octets.made?, if_neg hidle]
      exact h.act R hidle
  | arriveUp n =>
    exact ⟨h.store, h.worker, h.client, h.up.arrive n, h.down, h.short, h.fits, h.sent⟩
  | arriveDown n =>
    exact ⟨h.store, h.worker, h.client, h.up, h.down.arrive n, h.short, h.fits, h.sent⟩

/-- A run on bytes carries the run on packets that it makes. -/
theorem Carries.run (h : Carries s l) (R : Reader P) (ms : List (OctetMove κ)) :
    Carries (ms.foldl (Octets.step R tls) s) ((s.made R tls ms).foldl (Link.step P) l) := by
  induction ms generalizing s l with
  | nil => exact h
  | cons m ms ih =>
    rw [Octets.made, List.foldl_append]
    exact ih (h.step R m)

/-- With all bytes there a `proto_recv` waits only if nothing was sent, and then it waits
on packets as well. -/
theorem idles_link (h : Carries s l) (R : Reader P) (hup : s.up.coming = [])
    (hdown : s.down.coming = []) {a : LinkMove κ} (hidle : s.idles R (.act a chunks)) :
    l.step P a = l := by
  cases a with
  | input k => exact hidle.elim
  | lost => exact hidle.elim
  | other c => exact hidle.elim
  | take =>
    cases hd : l.down with
    | nil => simp [Link.step, hd]
    | cons m ms =>
      obtain ⟨hholds, _, hsize⟩ := h.down_fits R hd
      exact absurd (hholds.full hsize hdown) hidle
  | serve env =>
    obtain ⟨hlisten, hwait, hopen⟩ := hidle
    rw [h.worker] at hlisten
    rw [h.client] at hopen
    cases hu : l.up with
    | nil =>
      have hgone : P.closed l.client = false := Bool.eq_false_iff.mpr fun hc => hopen ⟨hc, hup⟩
      obtain ⟨store, worker, client, up, down, talk⟩ := l
      obtain rfl : up = [] := hu
      simp only [Link.step, serveStep, hlisten, hgone, if_true, Bool.false_eq_true, if_false,
        List.drop_length, List.append_nil]
    | cons p ps =>
      obtain ⟨hholds, hsize⟩ := h.up_fits hu
      exact absurd (hholds.full hsize hup) hwait

/-- Every run on packets is carried by a run on bytes: let all bytes arrive before each
move. -/
theorem Carries.runs (h : Carries s l) (R : Reader P) (acts : List (LinkMove κ)) :
    ∃ ms : List (OctetMove κ), ms.filterMap OctetMove.act? = acts ∧
      Carries (ms.foldl (Octets.step R tls) s) (acts.foldl (Link.step P) l) := by
  induction acts generalizing s l with
  | nil => exact ⟨[], rfl, h⟩
  | cons a acts ih =>
    let s₁ : Octets γ := { s with
      up := s.up.arrive s.up.coming.length
      down := s.down.arrive s.down.coming.length }
    have h₁ : Carries s₁ l :=
      ⟨h.store, h.worker, h.client, h.up.arrive _, h.down.arrive _, h.short, h.fits, h.sent⟩
    have hstep : Carries (s₁.step R tls (.act a fun _ => 0)) (l.step P a) := by
      by_cases hidle : s₁.idles R (.act a fun _ => 0)
      · rw [idles_act R hidle, idles_link h₁ R List.drop_length List.drop_length hidle]
        exact h₁
      · exact h₁.act R hidle
    obtain ⟨ms, hms, hrun⟩ := ih hstep
    refine ⟨.arriveUp s.up.coming.length :: .arriveDown s.down.coming.length ::
      .act a (fun _ => 0) :: ms, ?_, hrun⟩
    show a :: ms.filterMap OctetMove.act? = a :: acts
    rw [hms]

/-- A run over bytes makes a run over packets and carries what that leads to, and every
run over packets is made so. -/
def Agree (R : Reader P) (tls : Bool) (s : Octets γ) (l : Link γ) : Prop :=
  (∀ ms : List (OctetMove κ),
    Carries (ms.foldl (Octets.step R tls) s) ((s.made R tls ms).foldl (Link.step P) l)) ∧
  ∀ acts : List (LinkMove κ), ∃ ms : List (OctetMove κ), ms.filterMap OctetMove.act? = acts ∧
    Carries (ms.foldl (Octets.step R tls) s) (acts.foldl (Link.step P) l)

theorem Carries.agree (h : Carries s l) (R : Reader P) (tls : Bool) : Agree R tls s l :=
  ⟨h.run R, h.runs R⟩

end Step

end Octets

/-! ### The three clients -/

theorem short_request {p : Packet} (h : Request p) : Short [p] := by
  refine List.forall_mem_singleton.mpr ?_
  rcases h with rfl | ⟨idx, rfl⟩
  · exact Nat.zero_le _
  · show 1 ≤ 1024
    omega

def consoleReader : Reader console where
  cap := 2048
  take := Console.takePacket
  cap_eq := rfl
  room := by decide
  agrees c m _ := console_packet c m
  react_short c ch := by
    show Short (c.key ch).2
    by_cases hpc : c.pc = .keys
    · rcases key_cases c hpc ch with hk | hk | ⟨p, hp, _, hk⟩
      · rw [hk]
        exact short_nil
      · rw [hk]
        exact short_nil
      · rw [hk]
        exact short_request hp
    · have hk : c.key ch = (c, []) := by
        unfold Console.key
        split
        · exact absurd ‹_› hpc
        · rfl
      rw [hk]
      exact short_nil
  take_short c m := by
    show Short (c.take m).2
    unfold Console.take
    split <;> exact short_nil
  lost_short _ := short_nil

theorem goesOn_short {r : Bench × List Packet} (h : Bench.GoesOn r) : Short r.2 := by
  rcases h with ⟨_, hnil⟩ | ⟨p, hp, hask⟩
  · rw [hnil]
    exact short_nil
  · rw [hp]
    exact short_request hask.request

theorem untilState_short (b : Bench) (m : Msg) : Short (b.untilState m).2 := by
  cases m with
  | state st => exact goesOn_short (round_goesOn b 0)
  | loginResp ok => exact short_nil
  | resumeResp ok sid => exact short_nil
  | pong => exact short_nil
  | hand hand => exact short_nil
  | error code msg => exact short_nil

theorem wait_short (b : Bench) (seenState seenHand : Bool) (again : Bool → Bool → BenchPc)
    {next : Bench × List Packet} (hnext : Bench.GoesOn next) (m : Msg) :
    Short (b.wait seenState seenHand again next m).2 := by
  unfold Bench.wait
  split
  · split
    · exact short_nil
    · split
      · exact goesOn_short hnext
      · exact short_nil
  · split
    · exact goesOn_short hnext
    · exact short_nil
  · exact short_nil

def benchReader : Reader bench where
  cap := 1024
  take := Bench.takePacket
  cap_eq := rfl
  room := by decide
  agrees b m _ := bench_packet b m
  react_short _ k := nomatch k
  take_short b m := by
    show Short (b.take m).2
    unfold Bench.take
    split
    · split
      · exact short_nil
      · exact untilState_short b _
    · exact untilState_short b m
    · exact wait_short b _ _ _ (endTurn_goesOn b _) m
    · exact wait_short b _ _ _ (round_goesOn b _) m
    · exact short_nil
  lost_short b := by
    show Short b.lost.2
    unfold Bench.lost
    split
    · exact short_nil
    · exact short_nil
    · exact short_nil
    · exact goesOn_short (endTurn_goesOn b _)
    · exact goesOn_short (round_goesOn b _)

def guiReader : Reader gui where
  cap := 4096
  take c p := (c.takePacket p, [])
  cap_eq := rfl
  room := by decide
  agrees c m h := by
    rw [gui_packet c h]
    rfl
  react_short c k := by
    show Short (c.react k).2
    cases k with
    | frame => exact short_nil
    | click t => exact short_nil
    | forward =>
      unfold Gui.react
      simp only
      split
      · exact short_request (packet_request _)
      · exact short_nil
    | ping =>
      unfold Gui.react
      simp only
      split
      · exact List.forall_mem_singleton.mpr (Nat.zero_le _)
      · exact short_nil
  take_short _ _ := short_nil
  lost_short _ := short_nil

/-- Whatever the transport makes of the reads and writes of both ends, and whenever
the bytes arrive, a run of a client and its worker over bytes is the run over packets
with the same moves, those attempts to receive left out that came before the bytes of
their packet. Every run over packets arises so. -/
theorem bytes_carried (store : Store) (rng : ℕ → ℕ) (tls : Bool) :
    Agree consoleReader tls (Octets.start store rng Console.start)
      (Link.start store rng Console.start) ∧
    (∀ (idx : ℕ) (rounds : ℤ), Agree benchReader tls
      (Octets.start store rng (Bench.start idx rounds))
      (Link.start store rng (Bench.start idx rounds))) ∧
    Agree guiReader tls (Octets.start store rng Gui.start) (Link.start store rng Gui.start) := by
  constructor
  · exact (carries_start store rng Console.start).agree consoleReader tls
  constructor
  · intro idx rounds
    exact (carries_start store rng (Bench.start idx rounds)).agree benchReader tls
  · exact (carries_start store rng Gui.start).agree guiReader tls

/-- A console at its keys, in bytes. -/
theorem Carries.at_keys {rng : ℕ → ℕ} {s : Octets Console} {l : Link Console} (h : Carries s l)
    (hinv : Console.Inv rng l) (hpc : s.client.pc = .keys) :
    s.up = ⟨[], []⟩ ∧ s.down = ⟨[], []⟩ ∧ s.worker.pc = .recv ∧
      s.client.st = s.worker.game.st ∧ s.client.hand = s.worker.game.hand := by
  rw [h.client] at hpc
  cases hinv with
  | closed hclosed => cases hclosed.symm.trans hpc
  | waits hn hwaits =>
    obtain ⟨a, b, hwaiting⟩ := hwaits.pc
    cases hwaiting.symm.trans hpc
  | keys hat =>
    have hup := h.up
    have hdown := h.down
    rw [hat.up] at hup
    rw [hat.down] at hdown
    rw [h.worker, h.client]
    exact ⟨hup.empty, hdown.empty, hat.waiting, hat.st, hat.hand⟩

theorem console_run (store : Store) (rng : ℕ → ℕ) (acts : List (LinkMove ℤ)) :
    Console.Inv rng (acts.foldl (Link.step console) (Link.start store rng Console.start)) :=
  Run.foldl_invariant (I := Console.Inv rng) (fun _ m h => console_step h m) acts
    (.waits (n := 3) (by decide) (.joining (joining_start store rng Console.start)))

/-- In every run over bytes: at its keys the console shows the match of a waiting
worker, and no byte of either direction is unread or on its way. -/
theorem console_lockstep_bytes (store : Store) (rng : ℕ → ℕ) (tls : Bool)
    (ms : List (OctetMove ℤ)) :
    let s := ms.foldl (Octets.step consoleReader tls) (Octets.start store rng Console.start)
    s.client.pc = .keys → s.up = ⟨[], []⟩ ∧ s.down = ⟨[], []⟩ ∧ s.worker.pc = .recv ∧
      s.client.st = s.worker.game.st ∧ s.client.hand = s.worker.game.hand := by
  intro s hkeys
  have hs : Carries s _ := (carries_start store rng Console.start).run consoleReader ms
  exact hs.at_keys (console_run store rng _) hkeys

/-- The login in bytes: the request is read byte by byte, the answer in larger
chunks. -/
def octetLogin : List (OctetMove ℤ) :=
  [.arriveUp 8, .act (.serve env0) fun _ => 0, .act (.serve env0) fun _ => 99,
    .act (.serve env0) fun _ => 99, .arriveDown 500, .act .take fun _ => 1,
    .act .take fun _ => 1, .act .take fun _ => 99, .act .take fun _ => 1]

theorem console_lockstep_bytes_login :
    let s := octetLogin.foldl (Octets.step consoleReader true)
      (Octets.start Store.zero (fun _ => 0) Console.start)
    s.client.pc = .keys ∧ s.down = ⟨[], []⟩ := by
  have hpc : (octetLogin.foldl (Octets.step consoleReader true)
      (Octets.start Store.zero (fun _ => 0) Console.start)).client.pc = .keys := by decide +kernel
  obtain ⟨_, hdown, _⟩ := console_lockstep_bytes Store.zero (fun _ => 0) true _ hpc
  exact ⟨hpc, hdown⟩

end MiniTcg.Client
