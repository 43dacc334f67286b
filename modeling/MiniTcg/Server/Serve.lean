import MiniTcg.Server.Session

/-!
# A run for every list of packets

`serve ps` logs in and hands the packets `ps` to one worker that is never
disconnected, each with as many `ipc` steps as the longest branch needs; a step
of a waiting worker changes nothing. The run exists for every list, and ends
with the worker waiting for the next packet.
-/
namespace MiniTcg.Server

open MiniTcg.Game MiniTcg.Ipc MiniTcg.Wire

def env0 : AllocEnv := ⟨0, 1, 0, 0⟩

def loginPacket : Packet := ⟨opLoginReq, []⟩

def loginMoves : List Move := [.recv (some loginPacket), .ipc env0, .ipc env0]

/-- The packet, the heartbeat, and room for two saves. -/
def servePacket (p : Packet) : List Move := [.recv (some p), .ipc env0, .ipc env0, .ipc env0]

def serve (ps : List Packet) : List Move := loginMoves ++ ps.flatMap servePacket

def Move.reconnects : Move → Bool
  | .reconnect => true
  | _ => false

section Serve
variable {rng : ℕ → ℕ} {s : Session}

/-- A waiting worker has no call to make. -/
theorem step_ipc_waiting (h : Follows rng s) (hpc : s.worker.pc = .recv) (env : AllocEnv) :
    s.step (.ipc env) = s := by
  have hsid := (h.synced hpc).sid
  simp only [Session.step, Worker.onIpc, hpc, if_neg hsid]

/-- In a session the head of the loop goes on to `proto_recv`. -/
theorem loopTop_waits {w : Worker} {store : Store} {sid : UInt64}
    (h : Follows rng ⟨store, w.loopTop, sid⟩) : w.loopTop.pc = .recv := by
  by_cases hdue : w.game.st.aiDue
  · have hl : w.loopTop = w.act (.aiTurn true) := if_pos hdue
    rw [hl] at h
    exact h.atPc.ends.elim
  · have hl : w.loopTop = { w with pc := .recv } := if_neg hdue
    rw [hl]

/-- After its save a login, a play or the AI's turn is done. -/
theorem step_save_waits (h : Follows rng s) {a : Action} {base : Match}
    (hpc : s.worker.pc = .save a base) (ha : a ≠ .endTurn) (env : AllocEnv) :
    (s.step (.ipc env)).worker.pc = .recv ∧
      received (s.step (.ipc env)).worker.io = received s.worker.io := by
  have hf := follows_save h hpc env
  have hs := h.saving hpc
  simp only [Session.step, Worker.onIpc, hpc] at hf ⊢
  cases a with
  | endTurn => exact absurd rfl ha
  | aiTurn top =>
    cases top with
    | true => exact hs.ends.elim
    | false =>
      refine ⟨loopTop_waits hf, ?_⟩
      simp only [Worker.afterSave]
      rw [loopTop_io]
      rfl
  | login | play idx =>
    refine ⟨loopTop_waits hf, ?_⟩
    simp only [Worker.afterSave]
    rw [loopTop_io]
    rfl

/-- The save of an ended turn is followed by the AI's turn and its save, or by
nothing. -/
theorem step_save_endTurn (h : Follows rng s) {base : Match}
    (hpc : s.worker.pc = .save .endTurn base) (env : AllocEnv) :
    ((s.step (.ipc env)).worker.pc = .recv ∨
      ∃ base', (s.step (.ipc env)).worker.pc = .save (.aiTurn false) base') ∧
      received (s.step (.ipc env)).worker.io = received s.worker.io := by
  have hf := follows_save h hpc env
  simp only [Session.step, Worker.onIpc, hpc, Worker.afterSave] at hf ⊢
  by_cases hdue : s.worker.game.st.aiDue
  · simp only [if_pos hdue]
    exact ⟨Or.inr ⟨_, rfl⟩, rfl⟩
  · simp only [if_neg hdue] at hf ⊢
    refine ⟨Or.inl (loopTop_waits hf), ?_⟩
    rw [loopTop_io]
    rfl

/-- The heartbeat and the dispatch of a packet. -/
theorem step_touch (h : Follows rng s) {p : Packet} (hpc : s.worker.pc = .touch p)
    (env : AllocEnv) :
    ((s.step (.ipc env)).worker.pc = .recv ∨
      ∃ a base, (s.step (.ipc env)).worker.pc = .save a base) ∧
      received (s.step (.ipc env)).worker.io = received s.worker.io ++ [p] := by
  have hf := follows_ipc h env (by simp [Session.Allowed, hpc, Pc.loads])
  simp only [Session.step, Worker.onIpc, hpc] at hf ⊢
  rcases dispatch_cases ⟨.touch p, s.worker.mySid, s.worker.game, .got p :: s.worker.io⟩ p with
    ⟨w', hw, ha, _⟩ | ⟨_, _, _, idx, hw, _, _⟩ | ⟨_, _, hw, _, _⟩
  · rw [hw] at hf ⊢
    refine ⟨Or.inl (loopTop_waits hf), ?_⟩
    rw [loopTop_io, ha.frame.2.2]
    exact received_got _ _
  · rcases hw with hw | ⟨rc, hw⟩
    · rw [hw]
      exact ⟨Or.inr ⟨_, _, rfl⟩, received_got _ _⟩
    · rw [hw]
      exact ⟨Or.inr ⟨_, _, rfl⟩, received_got _ _⟩
  · rw [hw]
    exact ⟨Or.inr ⟨_, _, rfl⟩, received_got _ _⟩

theorem ipc_allowed (hpc : s.worker.pc.loads = none) (env : AllocEnv) : s.Allowed (.ipc env) := by
  simp [Session.Allowed, hpc]

/-- One `ipc` step from a save that is not that of an ended turn. -/
theorem ipc_once (h : Follows rng s)
    (hpc : s.worker.pc = .recv ∨ ∃ a base, a ≠ .endTurn ∧ s.worker.pc = .save a base)
    (env : AllocEnv) :
    s.Allowed (.ipc env) ∧ (s.step (.ipc env)).worker.pc = .recv ∧
      received (s.step (.ipc env)).worker.io = received s.worker.io := by
  rcases hpc with hpc | ⟨a, base, ha, hpc⟩
  · rw [step_ipc_waiting h hpc]
    exact ⟨ipc_allowed (by rw [hpc]; rfl) env, hpc, rfl⟩
  · exact ⟨ipc_allowed (by rw [hpc]; rfl) env, step_save_waits h hpc ha env⟩

/-- Two `ipc` steps finish every save. -/
theorem ipc_twice (h : Follows rng s)
    (hpc : s.worker.pc = .recv ∨ ∃ a base, s.worker.pc = .save a base) (env : AllocEnv) :
    Run.Along Session.step Session.Allowed s [.ipc env, .ipc env] ∧
      ((s.step (.ipc env)).step (.ipc env)).worker.pc = .recv ∧
      received ((s.step (.ipc env)).step (.ipc env)).worker.io = received s.worker.io := by
  have hall : s.Allowed (.ipc env) := by
    rcases hpc with hpc | ⟨a, base, hpc⟩ <;> exact ipc_allowed (by rw [hpc]; rfl) env
  have hnext : ((s.step (.ipc env)).worker.pc = .recv ∨
      ∃ a base, a ≠ .endTurn ∧ (s.step (.ipc env)).worker.pc = .save a base) ∧
      received (s.step (.ipc env)).worker.io = received s.worker.io := by
    by_cases hend : ∃ base, s.worker.pc = .save .endTurn base
    · obtain ⟨base, hpc⟩ := hend
      obtain ⟨hp, hr⟩ := step_save_endTurn h hpc env
      refine ⟨hp.imp_right ?_, hr⟩
      rintro ⟨base', hb⟩
      exact ⟨_, base', by decide, hb⟩
    · have hpc' : s.worker.pc = .recv ∨ ∃ a base, a ≠ .endTurn ∧ s.worker.pc = .save a base := by
        refine hpc.imp_right ?_
        rintro ⟨a, base, hpc⟩
        refine ⟨a, base, ?_, hpc⟩
        rintro rfl
        exact hend ⟨base, hpc⟩
      obtain ⟨_, hp, hr⟩ := ipc_once h hpc' env
      exact ⟨Or.inl hp, hr⟩
  obtain ⟨h2, hp2, hr2⟩ := ipc_once (follows_step _ hall h) hnext.1 env
  exact ⟨⟨hall, h2, trivial⟩, hp2, hr2.trans hnext.2⟩

/-- A packet that meets a waiting worker is handled, and the worker waits again. -/
theorem servePacket_run (h : Follows rng s) (hpc : s.worker.pc = .recv) (p : Packet) :
    Run.Along Session.step Session.Allowed s (servePacket p) ∧
      ((servePacket p).foldl Session.step s).worker.pc = .recv ∧
      received ((servePacket p).foldl Session.step s).worker.io = received s.worker.io ++ [p] := by
  have hrecv : s.Allowed (.recv (some p)) := by
    simp [Session.Allowed, hpc, Pc.logsIn]
  have h1 := follows_step _ hrecv h
  have hpc1 : (s.step (.recv (some p))).worker.pc = .touch p := by
    simp only [Session.step, Worker.onRecv, hpc]
  have hio1 : (s.step (.recv (some p))).worker.io = s.worker.io := by
    simp only [Session.step, Worker.onRecv, hpc]
  have hall1 : (s.step (.recv (some p))).Allowed (.ipc env0) :=
    ipc_allowed (by rw [hpc1]; rfl) env0
  obtain ⟨hpc2, hio2⟩ := step_touch h1 hpc1 env0
  obtain ⟨hall, hpc3, hio3⟩ := ipc_twice (follows_step _ hall1 h1) hpc2 env0
  refine ⟨⟨hrecv, hall1, hall⟩, hpc3, ?_⟩
  change received (Session.step (Session.step _ (.ipc env0)) (.ipc env0)).worker.io = _
  rw [hio3, hio2, hio1]

/-- The login of an empty store is served. -/
theorem login_run (rng : ℕ → ℕ) :
    Single rng loginMoves ∧ (runSession rng loginMoves).worker.pc = .recv ∧
      received (runSession rng loginMoves).worker.io = [] := by
  have hfree : ¬ (ipcAllocSession Store.zero env0).2 = 0 := by decide +kernel
  have hrecv : (Session.start rng).Allowed (.recv (some loginPacket)) := fun _ => rfl
  have h1 := follows_step _ hrecv (follows_start rng)
  generalize hs1 : (Session.start rng).step (.recv (some loginPacket)) = s1 at h1
  have hpc1 : s1.worker.pc = .alloc (origin rng) := by rw [← hs1]; rfl
  have hio1 : s1.worker.io = [] := by rw [← hs1]; rfl
  have hst1 : s1.store = Store.zero := by rw [← hs1]; rfl
  have hall1 : s1.Allowed (.ipc env0) := ipc_allowed (by rw [hpc1]; rfl) env0
  have h2 := follows_step _ hall1 h1
  have hpc2 : (s1.step (.ipc env0)).worker.pc = .save .login (origin rng) := by
    simp only [Session.step, Worker.onIpc, hpc1, hst1, if_neg hfree]
  have hio2 : (s1.step (.ipc env0)).worker.io = [] := by
    simp only [Session.step, Worker.onIpc, hpc1, hst1, if_neg hfree, hio1]
  obtain ⟨hall2, hpc3, hr3⟩ := ipc_once h2 (Or.inr ⟨_, _, by decide, hpc2⟩) env0
  have hrun : runSession rng loginMoves = (s1.step (.ipc env0)).step (.ipc env0) := by
    rw [← hs1]
    rfl
  rw [hrun, hr3, hio2]
  exact ⟨⟨hrecv, hs1 ▸ hall1, hs1 ▸ hall2, trivial⟩, hpc3, rfl⟩

theorem serve_append (ps : List Packet) (p : Packet) :
    serve (ps ++ [p]) = serve ps ++ servePacket p := by
  simp [serve]

/-- Every list of packets is received in some run, in which nothing is cut. -/
theorem serve_run (rng : ℕ → ℕ) (ps : List Packet) :
    Single rng (serve ps) ∧ (runSession rng (serve ps)).worker.pc = .recv ∧
      received (runSession rng (serve ps)).worker.io = ps := by
  induction ps using List.reverseRecOn with
  | nil => exact login_run rng
  | append_singleton ps p ih =>
    obtain ⟨hs, hpc, hr⟩ := ih
    obtain ⟨ha, hpc', hr'⟩ := servePacket_run hs.follows hpc p
    rw [serve_append]
    unfold Single runSession at *
    rw [Run.along_append, List.foldl_append]
    refine ⟨⟨hs, ha⟩, hpc', ?_⟩
    rw [hr', hr]

theorem serve_game (rng : ℕ → ℕ) (ps : List Packet) :
    (runSession rng (serve ps)).worker.game.Same (playout rng ps) := by
  obtain ⟨hs, hpc, hr⟩ := serve_run rng ps
  have hsame := (hs.follows.synced hpc).same
  rwa [Session.ref, hr] at hsame

theorem serve_uncut (ps : List Packet) : ∀ m ∈ serve ps, m.reconnects = false := by
  intro m hm
  simp only [serve, loginMoves, servePacket, List.mem_append, List.mem_flatMap, List.mem_cons,
    List.not_mem_nil, or_false] at hm
  rcases hm with (rfl | rfl | rfl) | ⟨p, _, rfl | rfl | rfl | rfl⟩ <;> rfl

end Serve

end MiniTcg.Server
