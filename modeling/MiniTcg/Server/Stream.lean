import MiniTcg.Server.Started
import MiniTcg.Wire.Flow

/-!
# A client that writes any bytes

A worker reads what its client wrote through `proto_recv`. Whatever the bytes are and
however the transport splits and delays them, the worker handles the frames at the
head of the stream, in order, and exits at the first place where no frame starts. The
match is a function of those frames.
-/
namespace MiniTcg.Server

open MiniTcg.Game MiniTcg.Ipc MiniTcg.Wire

/-- The packets behind the first login. -/
def afterLogin (ps : List Packet) : List Packet :=
  (ps.dropWhile fun p => decide (p.op ≠ opLoginReq)).tail

/-- A session, the bytes its worker has not read yet, and whether the client has hung
up. `written` and `heard` are history variables: all bytes the client wrote, and the
packets `proto_recv` gave to the worker. -/
structure Stream where
  session : Session
  flow : Flow
  hung : Bool
  written : List UInt8
  heard : List Packet

/-- The client writes bytes or hangs up, bytes arrive, the worker enters `proto_recv`
or makes its pending call, another session calls the store. -/
inductive StreamMove
  | write (bs : List UInt8)
  | hangUp
  | arrive (n : ℕ)
  | recv (chunks : ℕ → ℕ)
  | ipc (env : AllocEnv)
  | other (c : Call)

/-- `proto_recv` returns `r` and leaves the bytes `flow`. -/
def Stream.hear (s : Stream) (r : Option Packet) (flow : Flow) : Stream :=
  { s with session := s.session.step (.recv r), flow := flow, heard := s.heard ++ r.toList }

def Stream.step (tls : Bool) (s : Stream) : StreamMove → Stream
  | .write bs =>
    if s.hung then s
    else { s with flow := { s.flow with coming := s.flow.coming ++ bs }, written := s.written ++ bs }
  | .hangUp => { s with hung := true }
  | .arrive n => { s with flow := s.flow.arrive n }
  | .recv chunks =>
    if s.session.worker.pc.listens then
      match s.flow.recv tls chunks 1024 with
      | some (r, flow) => s.hear r flow
      | none => if s.hung ∧ s.flow.coming = [] then s.hear none ⟨[], []⟩ else s
    else s
  | .ipc env => { s with session := s.session.step (.ipc env) }
  | .other c => { s with session := s.session.step (.other c) }

def Stream.start (rng : ℕ → ℕ) : Stream := ⟨Session.start rng, ⟨[], []⟩, false, [], []⟩

/-- No resume finds a session, and the calls of other workers are for other ids. -/
def Stream.Allowed (s : Stream) : StreamMove → Prop
  | .ipc _ => ∀ sid ∈ s.session.worker.pc.loads.toList, s.session.store.lookup sid = none
  | .other c => s.session.sid = 0 ∨ Avoids s.session.store s.session.sid c
  | _ => True

instance (s : Stream) : (m : StreamMove) → Decidable (s.Allowed m)
  | .ipc _ => List.decidableBAll (fun sid => s.session.store.lookup sid = none)
      s.session.worker.pc.loads.toList
  | .other _ => inferInstanceAs (Decidable (_ ∨ _))
  | .write _ => isTrue trivial
  | .hangUp => isTrue trivial
  | .arrive _ => isTrue trivial
  | .recv _ => isTrue trivial

/-! ### Streams of frames -/

section AfterLogin
variable {ps : List Packet} {p : Packet}

theorem afterLogin_login (h : ∀ q ∈ ps, q.op ≠ opLoginReq) (hp : p.op = opLoginReq) :
    afterLogin (ps ++ [p]) = [] := by
  have hall : ∀ q ∈ ps, decide (q.op ≠ opLoginReq) = true := fun q hq => decide_eq_true (h q hq)
  unfold afterLogin
  rw [List.dropWhile_append_of_pos hall, List.dropWhile_cons_of_neg (by simp [hp])]
  rfl

theorem afterLogin_append (h : ∃ q ∈ ps, q.op = opLoginReq) :
    afterLogin (ps ++ [p]) = afterLogin ps ++ [p] := by
  induction ps with
  | nil => exact absurd h (by simp)
  | cons q ps ih =>
    unfold afterLogin at *
    by_cases hq : q.op = opLoginReq
    · rw [List.cons_append, List.dropWhile_cons_of_neg (by simp [hq]),
        List.dropWhile_cons_of_neg (by simp [hq])]
      rfl
    · have hrest : ∃ q ∈ ps, q.op = opLoginReq := by
        obtain ⟨q', hm, hq'⟩ := h
        rcases List.mem_cons.mp hm with rfl | hm
        · exact absurd hq' hq
        · exact ⟨q', hm, hq'⟩
      rw [List.cons_append, List.dropWhile_cons_of_pos (by simp [hq]),
        List.dropWhile_cons_of_pos (by simp [hq])]
      exact ih hrest

end AfterLogin

/-! ### The packets heard and the packets handled -/

/-- What the worker has done with the packets it heard: only greetings so far, or all
behind the first login handled. -/
def Stage (heard : List Packet) (s : Session) : Prop :=
  match s.worker.pc with
  | .handshake | .load _ => s.sid = 0 ∧ ∀ p ∈ heard, p.op ≠ opLoginReq
  | .alloc _ =>
    s.sid = 0 ∧ (∃ p ∈ heard, p.op = opLoginReq) ∧ received s.worker.io = afterLogin heard
  | .save _ _ | .recv =>
    (∃ p ∈ heard, p.op = opLoginReq) ∧ received s.worker.io = afterLogin heard
  | .touch p =>
    (∃ p ∈ heard, p.op = opLoginReq) ∧ received s.worker.io ++ [p] = afterLogin heard
  | .closed => True

section Stage
variable {rng : ℕ → ℕ} {s : Session} {heard : List Packet}

theorem stage_greeting (h : Stage heard s)
    (hpc : s.worker.pc = .handshake ∨ ∃ sid, s.worker.pc = .load sid) :
    s.sid = 0 ∧ ∀ p ∈ heard, p.op ≠ opLoginReq := by
  unfold Stage at h
  rcases hpc with hpc | ⟨sid, hpc⟩
  · rwa [hpc] at h
  · rwa [hpc] at h

theorem stage_recv (h : Stage heard s) (hpc : s.worker.pc = .recv) :
    (∃ p ∈ heard, p.op = opLoginReq) ∧ received s.worker.io = afterLogin heard := by
  unfold Stage at h
  rwa [hpc] at h

/-- Inside the session the packets handled are those behind the login. -/
theorem stage_inside {w : Worker} {store : Store} {sid : UInt64} {w₀ : Worker}
    (hin : Inside w₀ w) (hlogin : ∃ p ∈ heard, p.op = opLoginReq)
    (hgot : received w₀.io = afterLogin heard) : Stage heard ⟨store, w, sid⟩ := by
  have hr : received w.io = afterLogin heard := hin.got.trans hgot
  unfold Stage
  cases hpc : w.pc with
  | handshake =>
    have hg := hin.greeting
    rw [hpc] at hg
    cases hg
  | load sid =>
    have hg := hin.greeting
    rw [hpc] at hg
    cases hg
  | alloc base =>
    have hg := hin.greeting
    rw [hpc] at hg
    cases hg
  | save a base => exact ⟨hlogin, hr⟩
  | recv => exact ⟨hlogin, hr⟩
  | touch p => exact absurd hpc (hin.handled p)
  | closed => trivial

theorem stage_ipc (hf : Follows rng s) (h : Stage heard s) (env : AllocEnv)
    (hload : ∀ sid ∈ s.worker.pc.loads.toList, s.store.lookup sid = none) :
    Stage heard (s.step (.ipc env)) := by
  cases hpc : s.worker.pc with
  | handshake =>
    obtain ⟨hz, hnone⟩ := stage_greeting h (Or.inl hpc)
    have hmine : s.worker.mySid = 0 := hf.unassigned hz (Or.inl hpc)
    simp only [Session.step, Worker.onIpc, hpc, hz, hmine, if_true]
    unfold Stage
    simp only [hpc]
    exact ⟨trivial, hnone⟩
  | load sid =>
    obtain ⟨hz, hnone⟩ := stage_greeting h (Or.inr ⟨sid, hpc⟩)
    have hmissing : s.store.lookup sid = none := by
      refine hload sid ?_
      rw [hpc]
      exact List.mem_singleton.mpr rfl
    have hmine : s.worker.mySid = 0 := by
      rcases hf.greeting (Or.inr ⟨sid, hpc⟩) with b | d
      · exact b.mine
      · exact absurd hz d.sid
    have hrc : ¬ ((-1 : ℤ) = 0) := by decide
    simp only [Session.step, Worker.onIpc, hpc]
    rw [load_missing _ _ _ _ _ hmissing]
    simp only [if_neg hrc, hz, if_true]
    exact ⟨hmine, hnone⟩
  | alloc base =>
    unfold Stage at h
    rw [hpc] at h
    obtain ⟨_, hlogin, hr⟩ := h
    simp only [Session.step, Worker.onIpc, hpc]
    split
    · trivial
    · exact ⟨hlogin, hr⟩
  | save a base =>
    unfold Stage at h
    rw [hpc] at h
    obtain ⟨hlogin, hr⟩ := h
    simp only [Session.step, Worker.onIpc, hpc]
    exact stage_inside (afterSave_inside _ a) hlogin hr
  | touch p =>
    unfold Stage at h
    rw [hpc] at h
    obtain ⟨hlogin, hr⟩ := h
    simp only [Session.step, Worker.onIpc, hpc]
    exact stage_inside (dispatch_inside _ p) hlogin ((received_got _ p).trans hr)
  | recv =>
    have hr := stage_recv h hpc
    simp only [Session.step, Worker.onIpc, hpc]
    unfold Stage
    simp only [hpc]
    exact hr
  | closed =>
    simp only [Session.step, Worker.onIpc, hpc]
    unfold Stage
    simp only [hpc]

/-- The login of a first connection is one. -/
theorem stage_allowed (h : Stage heard s) (r : Option Packet) : s.Allowed (.recv r) := by
  intro hlogin
  cases hpc : s.worker.pc with
  | handshake => exact (stage_greeting h (Or.inl hpc)).1
  | alloc base => simp [hpc, Pc.logsIn] at hlogin
  | load sid => simp [hpc, Pc.logsIn] at hlogin
  | save a base => simp [hpc, Pc.logsIn] at hlogin
  | recv => simp [hpc, Pc.logsIn] at hlogin
  | touch p => simp [hpc, Pc.logsIn] at hlogin
  | closed => simp [hpc, Pc.logsIn] at hlogin

theorem stage_hear (hf : Follows rng s) (h : Stage heard s) (hl : s.worker.pc.listens = true)
    (p : Packet) : Stage (heard ++ [p]) (s.step (.recv (some p))) := by
  cases hpc : s.worker.pc with
  | handshake =>
    obtain ⟨hz, hnone⟩ := stage_greeting h (Or.inl hpc)
    have hnew : ∀ q, p.op ≠ opLoginReq → q ∈ heard ++ [p] → q.op ≠ opLoginReq := by
      intro q hp hq
      rcases List.mem_append.mp hq with hq | hq
      · exact hnone q hq
      · rw [List.mem_singleton.mp hq]
        exact hp
    have hreceived : received s.worker.io = [] := by
      rcases hf.greeting (Or.inl hpc) with b | d
      · exact b.none
      · exact absurd hz d.sid
    simp only [Session.step, Worker.onRecv, hpc]
    unfold Worker.greet
    split
    · rename_i hping
      have hp : p.op ≠ opLoginReq := by
        rw [hping]
        decide
      unfold Stage
      simp only [Worker.send, hpc]
      exact ⟨hz, fun q => hnew q hp⟩
    · split
      · rename_i hlogin
        refine ⟨hz, ⟨p, List.mem_append_right _ (List.mem_singleton.mpr rfl), hlogin⟩, ?_⟩
        rw [afterLogin_login hnone hlogin]
        exact hreceived
      · rename_i hp
        split
        · split
          · trivial
          · exact ⟨hz, fun q => hnew q hp⟩
        · unfold Stage
          simp only [hpc]
          exact ⟨hz, fun q => hnew q hp⟩
  | recv =>
    obtain ⟨hlogin, hr⟩ := stage_recv h hpc
    simp only [Session.step, Worker.onRecv, hpc]
    refine ⟨?_, ?_⟩
    · obtain ⟨q, hq, hop⟩ := hlogin
      exact ⟨q, List.mem_append_left _ hq, hop⟩
    · rw [afterLogin_append hlogin, hr]
  | alloc base => simp [hpc, Pc.listens] at hl
  | load sid => simp [hpc, Pc.listens] at hl
  | save a base => simp [hpc, Pc.listens] at hl
  | touch p => simp [hpc, Pc.listens] at hl
  | closed => simp [hpc, Pc.listens] at hl

theorem hangUp_closed (hl : s.worker.pc.listens = true) :
    (s.step (.recv none)).worker.pc = .closed := by
  cases hpc : s.worker.pc with
  | handshake => simp only [Session.step, Worker.onRecv, hpc, Worker.close]
  | recv => simp only [Session.step, Worker.onRecv, hpc, Worker.close]
  | alloc base => simp [hpc, Pc.listens] at hl
  | load sid => simp [hpc, Pc.listens] at hl
  | save a base => simp [hpc, Pc.listens] at hl
  | touch p => simp [hpc, Pc.listens] at hl
  | closed => simp [hpc, Pc.listens] at hl

end Stage

/-! ### A run -/

section Run
variable {rng : ℕ → ℕ} {tls : Bool} {s : Stream}

/-- The frames heard and the bytes not read yet are the bytes written, as long as the
worker has not exited. -/
structure Stream.Inv (rng : ℕ → ℕ) (s : Stream) : Prop where
  follows : Follows rng s.session
  stage : Stage s.heard s.session
  short : Short s.heard
  heard : s.heard.flatMap Packet.frame <+: s.written
  rest : s.session.worker.pc ≠ .closed →
    s.written = s.heard.flatMap Packet.frame ++ s.flow.rest

theorem Stream.Inv.hear_none (h : Stream.Inv rng s) (hl : s.session.worker.pc.listens = true)
    (flow : Flow) : Stream.Inv rng (s.hear none flow) := by
  have hclosed := hangUp_closed (s := s.session) hl
  have hsame : s.heard ++ (none : Option Packet).toList = s.heard := List.append_nil _
  constructor
  · exact follows_step (.recv none) (stage_allowed h.stage none) h.follows
  · show Stage _ (s.session.step (.recv none))
    unfold Stage
    rw [hclosed]
    trivial
  · show Short (s.heard ++ _)
    rw [hsame]
    exact h.short
  · show (s.heard ++ _).flatMap Packet.frame <+: s.written
    rw [hsame]
    exact h.heard
  · exact fun hopen => absurd hclosed hopen

theorem listens_open {pc : Pc} (h : pc.listens = true) : pc ≠ .closed := by
  rintro rfl
  cases h

theorem listens_recv {pc : Pc} (h : pc.listens = true) (hg : pc.greeting = false) : pc = .recv := by
  cases pc with
  | recv => rfl
  | handshake => cases hg
  | alloc base => cases h
  | load sid => cases h
  | save a base => cases h
  | touch p => cases h
  | closed => cases h

theorem Stream.Inv.hear_some (h : Stream.Inv rng s) (hl : s.session.worker.pc.listens = true)
    {p : Packet} {flow : Flow} (hframe : s.flow.rest = p.frame ++ flow.rest)
    (hp : p.payload.length ≤ 1024) : Stream.Inv rng (s.hear (some p) flow) := by
  have hwritten : s.written = (s.heard ++ [p]).flatMap Packet.frame ++ flow.rest := by
    rw [h.rest (listens_open hl), hframe, List.flatMap_append, List.flatMap_singleton,
      List.append_assoc]
  constructor
  · exact follows_step (.recv (some p)) (stage_allowed h.stage (some p)) h.follows
  · exact stage_hear h.follows h.stage hl p
  · exact h.short.append (List.forall_mem_singleton.mpr hp)
  · show _ <+: s.written
    rw [hwritten]
    exact List.prefix_append _ _
  · exact fun _ => hwritten

/-- A `proto_recv` of a listening worker waits, takes the next frame, or ends the
worker because the client has hung up or no frame follows. -/
theorem Stream.Inv.recv_cases (h : Stream.Inv rng s) (tls : Bool) (chunks : ℕ → ℕ) :
    s.step tls (.recv chunks) = s ∨
      (s.session.worker.pc.listens = true ∧ ∃ p flow, s.step tls (.recv chunks) = s.hear (some p) flow ∧
        s.flow.rest = p.frame ++ flow.rest ∧ p.payload.length ≤ 1024) ∨
      (s.session.worker.pc.listens = true ∧ ∃ flow, s.step tls (.recv chunks) = s.hear none flow ∧
        ∀ (p : Packet) after, p.payload.length ≤ 1024 →
          s.written ≠ s.heard.flatMap Packet.frame ++ (p.frame ++ after)) := by
  by_cases hl : s.session.worker.pc.listens = true
  swap
  · exact Or.inl (if_neg hl)
  have hmin : min (1024 : UInt32).toNat 4088 = 1024 := rfl
  have hrest := h.rest (listens_open hl)
  have hstep : s.step tls (.recv chunks) = match s.flow.recv tls chunks 1024 with
      | some (r, flow) => s.hear r flow
      | none => if s.hung ∧ s.flow.coming = [] then s.hear none ⟨[], []⟩ else s := if_pos hl
  rcases s.flow.recv_cases tls chunks 1024 with hnone | ⟨p, flow, hsome, hframe, hp⟩ |
    ⟨flow, hfail, hno⟩
  · by_cases hend : s.hung = true ∧ s.flow.coming = []
    · right
      right
      refine ⟨hl, ⟨[], []⟩, ?_, fun p after hp hw => ?_⟩
      · rw [hstep, hnone]
        exact if_pos hend
      · -- a whole frame would have been received
        have hframe : s.flow.rest = p.frame ++ after := by
          rw [hrest] at hw
          exact List.append_cancel_left hw
        rcases Flow.recv_frame hframe (by rw [hmin]; exact hp) tls chunks with ⟨_, hc⟩ | ⟨f, hf, _⟩
        · exact hc hend.2
        · rw [hnone] at hf
          cases hf
    · left
      rw [hstep, hnone]
      exact if_neg hend
  · right
    left
    refine ⟨hl, p, flow, ?_, hframe, ?_⟩
    · rw [hstep, hsome]
    · rw [hmin] at hp
      exact hp
  · right
    right
    refine ⟨hl, flow, ?_, fun p after hp hw => ?_⟩
    · rw [hstep, hfail]
    · rw [hrest] at hw
      exact hno p after (by rw [hmin]; exact hp) (List.append_cancel_left hw)

theorem Stream.Inv.step (h : Stream.Inv rng s) (m : StreamMove) (hm : s.Allowed m) :
    Stream.Inv rng (s.step tls m) := by
  cases m with
  | write bs =>
    by_cases hhung : s.hung = true
    · have hsame : s.step tls (.write bs) = s := if_pos hhung
      rw [hsame]
      exact h
    · have hstep : s.step tls (.write bs) = { s with
          flow := { s.flow with coming := s.flow.coming ++ bs }
          written := s.written ++ bs } := if_neg hhung
      rw [hstep]
      refine ⟨h.follows, h.stage, h.short, h.heard.trans (List.prefix_append _ _), fun hopen => ?_⟩
      show s.written ++ bs = s.heard.flatMap Packet.frame ++
        (s.flow.arrived ++ (s.flow.coming ++ bs))
      rw [h.rest hopen, Flow.rest]
      simp only [List.append_assoc]
  | hangUp => exact ⟨h.follows, h.stage, h.short, h.heard, h.rest⟩
  | arrive n =>
    refine ⟨h.follows, h.stage, h.short, h.heard, fun hopen => ?_⟩
    show s.written = s.heard.flatMap Packet.frame ++ (s.flow.arrive n).rest
    rw [Flow.rest_arrive]
    exact h.rest hopen
  | recv chunks =>
    rcases h.recv_cases tls chunks with hsame | ⟨hl, p, flow, hstep, hframe, hp⟩ |
      ⟨hl, flow, hstep, _⟩
    · rw [hsame]
      exact h
    · rw [hstep]
      exact h.hear_some hl hframe hp
    · rw [hstep]
      exact h.hear_none hl flow
  | ipc env =>
    have hclosed : s.session.worker.pc = .closed →
        (s.session.step (.ipc env)).worker.pc = .closed := by
      intro hpc
      simp only [Session.step, Worker.onIpc, hpc]
    refine ⟨?_, stage_ipc h.follows h.stage env hm, h.short, h.heard, fun hopen => ?_⟩
    · refine follows_step (.ipc env) (fun sid hsid => ?_) h.follows
      exact Or.inl (hm sid hsid)
    · exact h.rest fun hpc => hopen (hclosed hpc)
  | other c => exact ⟨follows_step (.other c) hm h.follows, h.stage, h.short, h.heard, h.rest⟩

end Run

end MiniTcg.Server
