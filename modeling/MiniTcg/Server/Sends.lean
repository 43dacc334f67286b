import MiniTcg.Server.Replies

/-!
# What a worker sends

A property of messages that pongs, tables and errors have holds of everything a worker
ever sends, if it holds of the two answers of the handshake.
-/
namespace MiniTcg.Server

open MiniTcg.Game MiniTcg.Ipc MiniTcg.Wire

/-- Everything sent so far satisfies `Q`. -/
def Sends (Q : Msg → Prop) (io : List Io) : Prop := ∀ m, Io.sent m ∈ io → Q m

/-- An answer of the handshake. -/
def Msg.greets : Msg → Bool
  | .loginResp _ | .resumeResp _ _ => true
  | _ => false

theorem mem_sent {io : List Io} {m : Msg} : m ∈ sent io ↔ Io.sent m ∈ io := by
  unfold sent
  rw [List.mem_reverse, List.mem_filterMap]
  constructor
  · rintro ⟨e, he, hm⟩
    cases e with
    | got p => cases hm
    | sent m' =>
      cases hm
      exact he
    | saved a st hand rc => cases hm
  · intro h
    exact ⟨_, h, rfl⟩

theorem playError_greets (rc : ℤ) : Msg.greets (playError rc) = false := by
  unfold playError
  split
  · rfl
  · split <;> rfl

section Sends
variable {Q : Msg → Prop} {w : Worker}

theorem Sends.cons {io : List Io} (h : Sends Q io) {e : Io} (he : ∀ m, e = .sent m → Q m) :
    Sends Q (e :: io) := by
  intro m hm
  rcases List.mem_cons.mp hm with heq | hold
  · exact he m heq.symm
  · exact h m hold

theorem Sends.got {io : List Io} (h : Sends Q io) (p : Packet) : Sends Q (.got p :: io) :=
  h.cons fun m he => by cases he

theorem Sends.saved {io : List Io} (h : Sends Q io) (a : Action) (st : State) (hand : Hand)
    (rc : ℤ) : Sends Q (.saved a st hand rc :: io) := h.cons fun m he => by cases he

theorem Sends.send (h : Sends Q w.io) {m : Msg} (hm : Q m) : Sends Q (w.send m).io :=
  h.cons fun m' he => by
    cases he
    exact hm

theorem Sends.loopTop (h : Sends Q w.io) : Sends Q w.loopTop.io := by
  rw [loopTop_io]
  exact h

variable (hq : ∀ m, Msg.greets m = false → Q m)
include hq

theorem Sends.sendTable (h : Sends Q w.io) : Sends Q w.sendTable.io :=
  Sends.send (w := w.send (.state w.game.st)) (h.send (hq _ rfl)) (hq _ rfl)

theorem Sends.dispatch (h : Sends Q w.io) (p : Packet) : Sends Q (w.dispatch p).io := by
  have hplain : ∀ m, Msg.greets m = false → Sends Q (w.send m).loopTop.io :=
    fun m hm => (h.send (hq m hm)).loopTop
  unfold Worker.dispatch
  split
  · exact hplain _ rfl
  split
  · exact (h.sendTable hq).loopTop
  split
  · split
    · exact hplain _ rfl
    split
    · exact hplain _ rfl
    split
    · simp only
      split
      · exact h
      · exact Sends.send (w := w.act _) h (hq _ (playError_greets _))
    · exact hplain _ rfl
  split
  · split
    · exact hplain _ rfl
    · exact h
  split
  · exact h.loopTop
  · exact hplain _ rfl

theorem Sends.onRecv (h : Sends Q w.io) (r : Option Packet) : Sends Q (w.onRecv r).io := by
  unfold Worker.onRecv
  split
  · unfold Worker.greet
    split
    · exact h.send (hq _ rfl)
    split
    · exact h
    split
    · split
      · exact h
      · exact h
    · exact h
  all_goals exact h

theorem Sends.afterSave (h : Sends Q w.io) (a : Action)
    (hlogin : a = .login → Q (.loginResp 1) ∧ Q (.resumeResp 1 w.mySid)) :
    Sends Q (w.afterSave a).io := by
  cases a with
  | login =>
    obtain ⟨hl, hr⟩ := hlogin rfl
    have hresume : Sends Q ((w.send (.loginResp 1)).send (.resumeResp 1 w.mySid)).io :=
      Sends.send (w := w.send (.loginResp 1)) (h.send hl) hr
    exact (hresume.sendTable hq).loopTop
  | play idx => exact (h.sendTable hq).loopTop
  | endTurn =>
    rw [Worker.afterSave]
    split
    · exact h
    · exact (h.sendTable hq).loopTop
  | aiTurn top =>
    cases top with
    | false => exact (h.sendTable hq).loopTop
    | true => exact h

theorem Sends.attach (h : Sends Q w.io) {sid : UInt64} (hr : Q (.resumeResp 1 sid)) (st : State)
    (hand : Hand) : Sends Q (w.attach sid st hand).io := by
  have hresume : Sends Q (Io.sent (.resumeResp 1 sid) :: w.io) := h.send hr
  simp only [Worker.attach]
  rw [loopTop_io]
  exact Sends.sendTable (w := Worker.send ⟨w.pc, sid, _, w.io⟩ _) hq hresume

/-- A pending call: the answers of the handshake are those to a login that is saved and to
a load. -/
theorem Sends.onIpc (h : Sends Q w.io) (s : Store) (env : AllocEnv)
    (hlogin : ∀ base, w.pc = .save .login base → Q (.loginResp 1) ∧ Q (.resumeResp 1 w.mySid))
    (hfound : ∀ sid, w.pc = .load sid → (s.lookup sid).isSome → Q (.resumeResp 1 sid))
    (hmissing : ∀ sid, w.pc = .load sid → s.lookup sid = none → Q (.resumeResp 0 0)) :
    Sends Q (w.onIpc s env).1.io := by
  cases hpc : w.pc with
  | alloc base =>
    simp only [Worker.onIpc, hpc]
    split
    · exact h.send (hq _ rfl)
    · exact h
  | load sid =>
    simp only [Worker.onIpc, hpc]
    cases hl : s.lookup sid with
    | none =>
      have hrc : ¬ ((-1 : ℤ) = 0) := by decide
      rw [load_missing _ _ _ _ _ hl]
      simp only [if_neg hrc]
      exact h.send (hmissing sid hpc hl)
    | some r =>
      obtain ⟨st, hand⟩ := r
      have hload := load_found s sid w.game.st w.game.hand env.seen hl
      generalize ipcLoadSession s sid w.game.st w.game.hand env.seen = q at hload ⊢
      obtain ⟨store, rc, st', hand'⟩ := q
      simp only [Prod.mk.injEq] at hload
      obtain ⟨rfl, rfl, rfl⟩ := hload
      simp only [if_true]
      exact h.attach hq (hfound sid hpc (by rw [hl]; rfl)) _ _
  | save a base =>
    simp only [Worker.onIpc, hpc]
    refine Sends.afterSave hq (h.saved _ _ _ _) a fun ha => hlogin base ?_
    rw [hpc, ha]
  | touch p =>
    simp only [Worker.onIpc, hpc]
    exact Sends.dispatch (w := ⟨.touch p, w.mySid, w.game, _⟩) hq (h.got p) p
  | handshake =>
    simp only [Worker.onIpc, hpc]
    exact h
  | recv =>
    simp only [Worker.onIpc, hpc]
    exact h
  | closed =>
    simp only [Worker.onIpc, hpc]
    exact h

end Sends

end MiniTcg.Server
