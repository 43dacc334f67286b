import MiniTcg.Lib.Ring
import MiniTcg.Game.State

/-!
# The battle log

The server writes the log lines of `state_t` with `push_log`, the GUI reads them
from `log_head` on. The two share nothing but the layout of the ring. What the
GUI reads are the last six messages, oldest first, each cut to 63 characters.
-/
namespace MiniTcg.Client

open MiniTcg.Game

/-- A formatted message, without its terminating NUL. -/
structure CStr where
  bytes : List UInt8
  no_nul : 0 ∉ bytes

/-- The string at the start of a `char` array; `none` if no NUL ends it there. -/
def cString? (buf : List UInt8) : Option (List UInt8) :=
  if 0 ∈ buf then some (buf.takeWhile fun b => b ≠ 0) else none

/-- `logs[j]` as a string. -/
def logLine (st : State) (j : ℕ) : Option (List UInt8) :=
  st.logs[j]?.bind fun buf => cString? buf.toList

/-- The strings of the battle log loop of the GUI. -/
def battleLog (st : State) : List (Option (List UInt8)) :=
  (List.range 6).map fun i => logLine st ((st.logHead.toNat + i) % 6)

/-- The state after some messages. -/
def logged (st : State) (msgs : List CStr) : State :=
  msgs.foldl (fun st m => pushLog st m.bytes) st

/-- The part of a message that fits into a line. -/
def CStr.line (m : CStr) : List UInt8 := m.bytes.take 63

/-! ### One line -/

theorem cString_append {l rest : List UInt8} (h : 0 ∉ l) : cString? (l ++ 0 :: rest) = some l := by
  have hall : ∀ b ∈ l, decide (b ≠ 0) = true := by
    intro b hb
    rw [decide_eq_true_eq]
    rintro rfl
    exact h hb
  unfold cString?
  rw [if_pos (List.mem_append_right l List.mem_cons_self), List.takeWhile_append_of_pos hall]
  simp

/-- What `vsnprintf` leaves in a line: the message, a NUL, and older bytes. -/
theorem vsnprintf_toList (buf : Vector UInt8 logLen) (msg : List UInt8) :
    ∃ rest, (vsnprintf buf msg).toList = msg.take 63 ++ 0 :: rest := by
  have hlen : (vsnprintf buf msg).toList.length = 64 := Vector.length_toList
  have hcut : min msg.length 63 < (vsnprintf buf msg).toList.length := by omega
  have hend : (vsnprintf buf msg).toList[min msg.length 63] = 0 := by
    simp only [vsnprintf, Vector.getElem_toList, Vector.getElem_ofFn]
    rw [if_neg (Nat.lt_irrefl _), if_pos trivial]
  have htext : (vsnprintf buf msg).toList.take (min msg.length 63) = msg.take 63 := by
    refine List.ext_getElem (by simp only [List.length_take]; omega) fun j hj hj' => ?_
    rw [List.length_take] at hj hj'
    have hlt : j < min msg.length 63 := by omega
    have hmsg : j < msg.length := by omega
    rw [List.getElem_take, List.getElem_take]
    simp only [vsnprintf, Vector.getElem_toList, Vector.getElem_ofFn, if_pos hlt]
    rw [List.getD_eq_getElem?_getD, List.getElem?_eq_getElem hmsg, Option.getD_some]
  refine ⟨(vsnprintf buf msg).toList.drop (min msg.length 63 + 1), ?_⟩
  rw [← htext, ← hend, ← List.drop_eq_getElem_cons hcut, List.take_append_drop]

theorem cString_vsnprintf (buf : Vector UInt8 logLen) (m : CStr) :
    cString? (vsnprintf buf m.bytes).toList = some m.line := by
  obtain ⟨rest, hrest⟩ := vsnprintf_toList buf m.bytes
  rw [hrest]
  exact cString_append fun hz => m.no_nul (List.mem_of_mem_take hz)

/-! ### The ring -/

theorem battleLog_eq (st : State) : battleLog st = Ring.around 6 st.logHead.toNat (logLine st) := rfl

/-- A message slides into what the GUI reads. -/
theorem battleLog_pushLog {st : State} (h : st.logHead.toNat < 6) (m : CStr) :
    battleLog (pushLog st m.bytes) = Ring.slide (battleLog st) (some m.line) := by
  have hlines : st.logHead.toNat < logLines := h
  have hidx : st.logHead.toNat % logLines = st.logHead.toNat := Nat.mod_eq_of_lt hlines
  rw [battleLog_eq, battleLog_eq, pushLog_logHead]
  refine Ring.around_write h ?_ fun j hj hne => ?_
  · unfold logLine pushLog
    simp only [hidx]
    rw [Vector.getElem?_set_self hlines, Option.bind_some, cString_vsnprintf]
  · unfold logLine pushLog
    simp only [hidx]
    rw [Vector.getElem?_set_ne hlines (Ne.symm hne)]

theorem battleLog_logged {st : State} (h : st.logHead.toNat < 6) (msgs : List CStr) :
    battleLog (logged st msgs) =
        (msgs.map fun m => some m.line).foldl Ring.slide (battleLog st) ∧
      (logged st msgs).logHead.toNat < 6 := by
  induction msgs generalizing st with
  | nil => exact ⟨rfl, h⟩
  | cons m msgs ih =>
    obtain ⟨hlog, hhead⟩ := ih (pushLog_logHead_lt st m.bytes)
    refine ⟨?_, hhead⟩
    rw [List.map_cons, List.foldl_cons, ← battleLog_pushLog h m]
    exact hlog

theorem battleLog_zero : battleLog State.zero = List.replicate 6 (some []) := by
  decide +kernel

/-- After any messages the GUI reads the last six of them, oldest first and cut to
63 characters, behind as many empty strings as there are messages missing. -/
theorem battle_log_last_six (msgs : List CStr) :
    battleLog (logged State.zero msgs) =
        List.replicate (6 - min msgs.length 6) (some []) ++
          (msgs.drop (msgs.length - 6)).map (fun m => some (m.bytes.take 63)) ∧
      (logged State.zero msgs).logHead.toNat < logLines := by
  have hzero : State.zero.logHead.toNat < 6 := by decide
  obtain ⟨hlog, hhead⟩ := battleLog_logged hzero msgs
  refine ⟨?_, hhead⟩
  rw [hlog, battleLog_zero, Ring.foldl_slide_replicate (by omega), List.length_map, ← List.map_drop]
  have hmissing : 6 - msgs.length = 6 - min msgs.length 6 := by omega
  rw [hmissing]
  rfl

end MiniTcg.Client
