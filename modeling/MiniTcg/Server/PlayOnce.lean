import MiniTcg.Game.Slots
import MiniTcg.Server.Serve

/-!
# When a session plays each dealt card at most once

The step that dispatches a `OP_PLAY_CARD` is the only one that can break the rule,
and it does so whenever the index meets a card the player can pay for.
-/
namespace MiniTcg.Server

open MiniTcg.Game MiniTcg.Ipc MiniTcg.Wire

/-- The worker is about to handle a `OP_PLAY_CARD` whose slot holds a card that the
mana pays for. -/
def CardMet (s : Session) : Move → Prop
  | .ipc _ => s.worker.game.st.gameOver = 0 ∧ ∃ idx, s.worker.pc = .touch ⟨opPlayCard, [idx]⟩ ∧
      (playable s.worker.game.st.toCore s.worker.game.hand idx).isSome
  | _ => False

section PlayOnce
variable {rng : ℕ → ℕ} {s : Session}

theorem loopTop_refused (w : Worker) :
    PlayerRefused w.loopTop.game.trace ↔ PlayerRefused w.game.trace := by
  unfold Worker.loopTop
  split
  · exact processAiTurn_refused w.game
  · exact Iff.rfl

theorem afterSave_refused (w : Worker) (a : Action) :
    PlayerRefused (w.afterSave a).game.trace ↔ PlayerRefused w.game.trace := by
  cases a with
  | login => exact loopTop_refused _
  | play idx => exact loopTop_refused _
  | endTurn =>
    rw [Worker.afterSave]
    split
    · exact processAiTurn_refused w.game
    · exact loopTop_refused _
  | aiTurn top =>
    cases top with
    | false => exact loopTop_refused _
    | true => exact Iff.rfl

/-- The dispatch of a packet adds a success of the player exactly when it meets a card. -/
theorem touch_refused (h : Follows rng s) {p : Packet} (hpc : s.worker.pc = .touch p)
    (env : AllocEnv) :
    PlayerRefused (s.step (.ipc env)).worker.game.trace ↔
      PlayerRefused s.worker.game.trace ∧ ¬ CardMet s (.ipc env) := by
  have hs := h.synced_touch hpc
  have hmet : CardMet s (.ipc env) ↔ s.worker.game.st.gameOver = 0 ∧ ∃ idx,
      p = ⟨opPlayCard, [idx]⟩ ∧
        (playable s.worker.game.st.toCore s.worker.game.hand idx).isSome := by
    simp only [CardMet, hpc, Pc.touch.injEq]
  rw [hmet]
  simp only [Session.step, Worker.onIpc, hpc]
  rcases dispatch_cases ⟨.touch p, s.worker.mySid, s.worker.game, .got p :: s.worker.io⟩ p with
    ⟨w', hw, ha, hon⟩ | ⟨live, _, _, idx, hw, _, rfl⟩ | ⟨_, _, hw, _, hop⟩
  · rw [hw, loopTop_refused, ha.frame.1, iff_self_and]
    rintro _ ⟨live, idx, rfl, _⟩
    change onPacket s.worker.game _ = s.worker.game at hon
    rw [onPacket_play hs.idle live] at hon
    have hlen := congrArg (fun g => g.trace.length) hon
    simp [playerPlay] at hlen
  · have hiff : PlayerRefused (playerPlay s.worker.game idx).trace ↔
        PlayerRefused s.worker.game.trace ∧ ¬ (s.worker.game.st.gameOver = 0 ∧ ∃ i,
          (⟨opPlayCard, [idx]⟩ : Packet) = ⟨opPlayCard, [i]⟩ ∧
          (playable s.worker.game.st.toCore s.worker.game.hand i).isSome) := by
      change s.worker.game.st.gameOver = 0 at live
      rw [playerPlay_refused]
      simp [live]
    rcases hw with hw | ⟨rc, hw⟩
    · rw [hw]
      exact hiff
    · rw [hw]
      exact hiff
  · rw [hw]
    change PlayerRefused (phaseEnd s.worker.game).trace ↔ _
    rw [phaseEnd_refused, iff_self_and]
    rintro _ ⟨_, idx, rfl, _⟩
    have hne : ¬ opPlayCard = opEndTurn := by decide
    exact absurd hop hne

/-- Every other step leaves the player's plays alone. -/
theorem step_refused (h : Follows rng s) (m : Move) :
    PlayerRefused (s.step m).worker.game.trace ↔
      PlayerRefused s.worker.game.trace ∧ ¬ CardMet s m := by
  cases m with
  | recv r =>
    rw [and_iff_left (by simp [CardMet])]
    simp only [Session.step, Worker.onRecv]
    split
    · unfold Worker.greet
      split
      · exact Iff.rfl
      · split
        · exact enterTurn_refused _ _
        · split
          · split <;> exact Iff.rfl
          · exact Iff.rfl
    all_goals exact Iff.rfl
  | ipc env =>
    cases hpc : s.worker.pc with
    | touch p => exact touch_refused h hpc env
    | save a base =>
      rw [and_iff_left (by simp [CardMet, hpc])]
      simp only [Session.step, Worker.onIpc, hpc]
      exact afterSave_refused _ a
    | load sid =>
      rw [and_iff_left (by simp [CardMet, hpc])]
      simp only [Session.step, Worker.onIpc, hpc]
      split
      · exact loopTop_refused _
      · exact Iff.rfl
    | alloc base =>
      rw [and_iff_left (by simp [CardMet, hpc])]
      simp only [Session.step, Worker.onIpc, hpc]
      split <;> exact Iff.rfl
    | handshake | recv | closed =>
      rw [and_iff_left (by simp [CardMet, hpc])]
      simp only [Session.step, Worker.onIpc, hpc]
  | reconnect =>
    rw [and_iff_left (by simp [CardMet])]
    exact Iff.rfl
  | other c =>
    rw [and_iff_left (by simp [CardMet])]
    exact Iff.rfl

theorem Single.refused_iff {ms : List Move} (h : Single rng ms) :
    PlayerRefused (runSession rng ms).worker.game.trace ↔
      Run.Along Session.step (fun s m => ¬ CardMet s m) (Session.start rng) ms := by
  induction ms using List.reverseRecOn with
  | nil => exact iff_of_true (fun p hp => absurd hp List.not_mem_nil) trivial
  | append_singleton ms m ih =>
    have hms : Single rng ms := (Run.along_append.mp h).1
    unfold runSession at ih ⊢
    rw [Run.along_append, List.foldl_append, ← ih hms]
    have hstep := step_refused hms.follows m
    unfold runSession at hstep
    simpa [Run.Along] using hstep

theorem Traced.playedOnce_iff {t : List Event} (h : Traced t) :
    PlayedOnce t ↔ PlayerRefused t := by
  rcases h with rfl | ⟨v, hv, rfl⟩
  · refine iff_of_true ⟨fun t' hs i => ?_, fun q t' hs => ?_⟩ fun p hp => ?_
    · rw [List.suffix_nil.mp hs]
      exact Nat.zero_le _
    · cases List.suffix_nil.mp hs
    · exact absurd hp List.not_mem_nil
  · exact Game.playedOnce_iff hv

/-- A session plays each dealt card at most once exactly when no `OP_PLAY_CARD` of
it meets a card the player can pay for. -/
theorem session_plays_once_iff {ms : List Move} (h : Single rng ms) :
    PlayedOnce (runSession rng ms).worker.game.trace ↔
      Run.Along Session.step (fun s m => ¬ CardMet s m) (Session.start rng) ms :=
  h.follows.traced.playedOnce_iff.trans h.refused_iff

end PlayOnce

/-- The player names a slot that does not exist and ends the turn; the AI plays a card. -/
def refusedPackets : List Packet := [⟨opPlayCard, [7]⟩, ⟨opEndTurn, []⟩]

theorem session_plays_once_refused :
    PlayedOnce (runSession (fun _ => 0) (serve refusedPackets)).worker.game.trace ∧
      sinceDraw ((runSession (fun _ => 0) (serve refusedPackets)).worker.game.trace.drop 1) ≠ [] := by
  have hs := (serve_run (fun _ => 0) refusedPackets).1
  have hplay : PlayerRefused (playerPlay (loginGame (origin fun _ => 0)) 7).trace := by
    refine (playerPlay_refused _ _).mpr ⟨(enterTurn_refused _ _).mpr ?_, by decide +kernel⟩
    exact fun p hp => absurd hp List.not_mem_nil
  have hturn : PlayerRefused
      (processAiTurn (phaseEnd (playerPlay (loginGame (origin fun _ => 0)) 7))).trace := by
    rw [processAiTurn_refused, phaseEnd_refused]
    exact hplay
  have htrace := (serve_game (fun _ => 0) refusedPackets).trace
  constructor
  · refine (session_plays_once_iff hs).mpr (hs.refused_iff.mp ?_)
    rw [htrace]
    exact hturn
  · rw [htrace]
    decide +kernel

/-- The player plays the same Strike twice in one turn. -/
theorem session_plays_twice :
    ¬ PlayedOnce (runSession (fun _ => 0)
      (serve [⟨opPlayCard, [0]⟩, ⟨opPlayCard, [0]⟩])).worker.game.trace := by
  rw [(serve_game (fun _ => 0) [⟨opPlayCard, [0]⟩, ⟨opPlayCard, [0]⟩]).trace]
  intro h
  have hlen := h.1 _ (List.suffix_refl _) 0
  exact absurd hlen (by decide +kernel)

end MiniTcg.Server
