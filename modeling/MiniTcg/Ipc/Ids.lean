import Mathlib.Algebra.Order.Ring.Nat
import Mathlib.Data.List.Induction
import MiniTcg.Ipc.Refinement

/-!
# When session ids are unique

`ipc_alloc_session` adds the clock, the slot number and the pid, and mixes a
random number into the high word. Two logins of a run get one id exactly when the
low words of their sums agree and their random numbers make up for the difference
of the high words; a sum that comes out as zero counts as one.
-/
namespace MiniTcg.Ipc

open MiniTcg.Game

/-- The new id is that of no other valid slot, and a search by it ends at the slot
it was given to. -/
def UniqueLogin (w : Store × History) : Call → Prop
  | .alloc env => ∀ i, w.1.sessions.findIdx? (fun e => !e.valid) = some i →
      (∀ (j : ℕ) (e : SessionEntry), (ipcAllocSession w.1 env).1.sessions[j]? = some e →
        e.valid = true → e.sessionId = (ipcAllocSession w.1 env).2 → j = i) ∧
      (ipcAllocSession w.1 env).1.sessions.findIdx? (SessionEntry.has (ipcAllocSession w.1 env).2) =
        some i
  | _ => True

/-! ### The words of an id -/

/-- `time(NULL) + i + getpid()`. -/
def idSum (env : AllocEnv) (i : ℕ) : ℕ := (env.time.toNat + i + env.pid) % 2 ^ 64

def lowWord (env : AllocEnv) (i : ℕ) : ℕ := idSum env i % 2 ^ 32

def highWord (env : AllocEnv) (i : ℕ) : ℕ := (idSum env i / 2 ^ 32) ^^^ (env.rand % 2 ^ 32)

/-- The logins, each with its slot, compute the same id. -/
def Clash (a b : AllocEnv × ℕ) : Prop :=
  (lowWord a.1 a.2 = lowWord b.1 b.2 ∧ highWord a.1 a.2 = highWord b.1 b.2) ∨
    (highWord a.1 a.2 = 0 ∧ highWord b.1 b.2 = 0 ∧ lowWord a.1 a.2 ≤ 1 ∧ lowWord b.1 b.2 ≤ 1)

instance (a b : AllocEnv × ℕ) : Decidable (Clash a b) := inferInstanceAs (Decidable (_ ∨ _))

theorem idSum_toNat (env : AllocEnv) (i : ℕ) :
    (env.time + UInt64.ofNat i + UInt64.ofNat env.pid).toNat = idSum env i := by
  unfold idSum
  rw [UInt64.toNat_add, UInt64.toNat_add, UInt64.toNat_ofNat', UInt64.toNat_ofNat']
  omega

theorem randWord_toNat (r : ℕ) : (UInt64.ofNat r <<< 32).toNat = r % 2 ^ 32 * 2 ^ 32 := by
  have h32 : (32 : UInt64).toNat % 64 = 32 := rfl
  rw [UInt64.toNat_shiftLeft, UInt64.toNat_ofNat', h32, Nat.shiftLeft_eq]
  omega

/-- The id before the test for zero. -/
theorem rawId_toNat (env : AllocEnv) (i : ℕ) :
    ((env.time + UInt64.ofNat i + UInt64.ofNat env.pid) ^^^ (UInt64.ofNat env.rand <<< 32)).toNat =
      highWord env i * 2 ^ 32 + lowWord env i := by
  have hlow : (idSum env i ^^^ env.rand % 2 ^ 32 * 2 ^ 32) % 2 ^ 32 = lowWord env i := by
    rw [Nat.xor_mod_two_pow, Nat.mul_mod_left, Nat.xor_zero]
    rfl
  have hhigh : (idSum env i ^^^ env.rand % 2 ^ 32 * 2 ^ 32) / 2 ^ 32 = highWord env i := by
    rw [Nat.xor_div_two_pow, Nat.mul_div_cancel _ (Nat.two_pow_pos 32)]
    rfl
  rw [UInt64.toNat_xor, idSum_toNat, randWord_toNat, ← hlow, ← hhigh]
  exact (Nat.div_add_mod' _ _).symm

theorem allocId_toNat (env : AllocEnv) (i : ℕ) :
    (allocId env i).toNat =
      if highWord env i = 0 ∧ lowWord env i = 0 then 1
      else highWord env i * 2 ^ 32 + lowWord env i := by
  have hraw := rawId_toNat env i
  unfold allocId
  simp only
  generalize (env.time + UInt64.ofNat i + UInt64.ofNat env.pid) ^^^ (UInt64.ofNat env.rand <<< 32) = r
    at hraw ⊢
  by_cases hz : r = 0
  · subst hz
    rw [UInt64.toNat_zero] at hraw
    rw [if_pos rfl, if_pos (by omega)]
    rfl
  · have hne : r.toNat ≠ 0 := fun h => hz (UInt64.toNat_inj.mp h)
    rw [if_neg hz, if_neg (by omega), hraw]

/-- The condition is exact: ids agree when the logins clash, and only then. -/
theorem allocId_eq_iff (a b : AllocEnv × ℕ) :
    allocId a.1 a.2 = allocId b.1 b.2 ↔ Clash a b := by
  have ha : lowWord a.1 a.2 < 2 ^ 32 := Nat.mod_lt _ (Nat.two_pow_pos 32)
  have hb : lowWord b.1 b.2 < 2 ^ 32 := Nat.mod_lt _ (Nat.two_pow_pos 32)
  rw [← UInt64.toNat_inj, allocId_toNat, allocId_toNat]
  unfold Clash
  split
  · split
    · omega
    · omega
  · split
    · omega
    · omega

/-! ### One login -/

section Login
variable {s : Store} {env : AllocEnv} {i : ℕ}

theorem alloc_eq (hf : s.sessions.findIdx? (fun e => !e.valid) = some i) :
    ipcAllocSession s env = (s.modify i fun e =>
      { e with valid := true, sessionId := allocId env i, lastSeen := env.seen }, allocId env i) := by
  unfold ipcAllocSession
  rw [hf]

theorem alloc_other_slot (hf : s.sessions.findIdx? (fun e => !e.valid) = some i) {j : ℕ}
    (hj : j ≠ i) : (ipcAllocSession s env).1.sessions[j]? = s.sessions[j]? := by
  rw [alloc_eq hf]
  simp [Store.modify, Ne.symm hj]

theorem alloc_own_slot (env : AllocEnv) (hf : s.sessions.findIdx? (fun e => !e.valid) = some i) :
    ∃ e, (ipcAllocSession s env).1.sessions[i]? = some e ∧ e.has (allocId env i) = true := by
  obtain ⟨hi, _, _⟩ := List.findIdx?_eq_some_iff_getElem.mp hf
  rw [alloc_eq hf]
  refine ⟨{ s.sessions[i] with valid := true, sessionId := allocId env i, lastSeen := env.seen },
    ?_, ?_⟩
  · simp [Store.modify, hi]
  · simp [SessionEntry.has]

/-- The new entry is the only one of its id, and found by it, exactly when the id
was not in use. -/
theorem alloc_unique_iff (hf : s.sessions.findIdx? (fun e => !e.valid) = some i) :
    ((∀ (j : ℕ) (e : SessionEntry), (ipcAllocSession s env).1.sessions[j]? = some e →
        e.valid = true → e.sessionId = (ipcAllocSession s env).2 → j = i) ∧
      (ipcAllocSession s env).1.sessions.findIdx? (SessionEntry.has (ipcAllocSession s env).2) =
        some i) ↔
      ∀ e ∈ s.sessions, e.valid = true → e.sessionId ≠ allocId env i := by
  have hid : (ipcAllocSession s env).2 = allocId env i := by rw [alloc_eq hf]
  obtain ⟨hi, hfree, _⟩ := List.findIdx?_eq_some_iff_getElem.mp hf
  rw [hid]
  constructor
  · rintro ⟨honly, _⟩ e he hv hs
    obtain ⟨j, hj⟩ := List.mem_iff_getElem?.mp he
    have hji : j ≠ i := by
      rintro rfl
      rw [List.getElem?_eq_getElem hi] at hj
      rw [Option.some.inj hj, hv] at hfree
      cases hfree
    exact hji (honly j e ((alloc_other_slot hf hji).trans hj) hv hs)
  · intro hfresh
    have honly : ∀ (j : ℕ) (e : SessionEntry),
        (ipcAllocSession s env).1.sessions[j]? = some e → e.valid = true →
          e.sessionId = allocId env i → j = i := by
      intro j e hj hv hs
      by_contra hji
      rw [alloc_other_slot hf hji] at hj
      exact hfresh e (List.mem_of_getElem? hj) hv hs
    refine ⟨honly, ?_⟩
    -- a search by the id ends somewhere, and there is nowhere else to end
    obtain ⟨e, he, hhas⟩ := alloc_own_slot env hf
    obtain ⟨k, hk⟩ := Option.isSome_iff_exists.mp
      (List.findIdx?_isSome.trans (List.any_eq_true.mpr ⟨e, List.mem_of_getElem? he, hhas⟩))
    obtain ⟨hlt, hhit, _⟩ := List.findIdx?_eq_some_iff_getElem.mp hk
    simp only [SessionEntry.has, Bool.and_eq_true, beq_iff_eq] at hhit
    rw [hk, honly k _ (List.getElem?_eq_getElem hlt) hhit.1 hhit.2]

end Login

theorem uniqueLogin_iff (w : Store × History) (c : Call) : UniqueLogin w c ↔ FreshCall w c := by
  cases c with
  | save sid st hand now => exact Iff.rfl
  | load sid st hand now => exact Iff.rfl
  | touch sid now => exact Iff.rfl
  | alloc env =>
    simp only [UniqueLogin, FreshCall, Store.nextId]
    cases hf : w.1.sessions.findIdx? (fun e => !e.valid) with
    | none => exact iff_of_true nofun fun _ h => absurd h List.not_mem_nil
    | some i =>
      simp only [Option.map_some, Option.toList_some, List.mem_singleton, forall_eq,
        Option.some.injEq, forall_eq']
      exact alloc_unique_iff hf

/-! ### A run of logins -/

def Call.login? : Call → Option AllocEnv
  | .alloc env => some env
  | _ => none

theorem alloc_of_login {c : Call} {env : AllocEnv} (h : c.login? = some env) : c = .alloc env := by
  cases c with
  | alloc env' => exact congrArg Call.alloc (Option.some.inj h)
  | _ => cases h

/-- The logins that got a slot, each with the slot. -/
def slotsOf (calls : List Call) : List (AllocEnv × ℕ) :=
  ((calls.filterMap Call.login?).take maxSessions).zipIdx

theorem slotsOf_login (calls : List Call) (env : AllocEnv) :
    slotsOf (calls ++ [.alloc env]) =
      if (slotsOf calls).length < maxSessions then slotsOf calls ++ [(env, (slotsOf calls).length)]
      else slotsOf calls := by
  have hlen : (slotsOf calls).length = min maxSessions (calls.filterMap Call.login?).length := by
    unfold slotsOf
    rw [List.length_zipIdx, List.length_take]
  rw [hlen]
  unfold slotsOf
  rw [List.filterMap_append]
  show (List.take maxSessions (_ ++ [env])).zipIdx = _
  split
  · rename_i hlt
    have hk : (calls.filterMap Call.login?).length < maxSessions := by omega
    rw [List.take_of_length_le (by rw [List.length_append, List.length_singleton]; omega),
      List.take_of_length_le (Nat.le_of_lt hk), List.zipIdx_append, Nat.min_eq_right (by omega)]
    simp
  · rename_i hge
    rw [List.take_append_of_le_length (by omega)]

theorem slotsOf_other (calls : List Call) {c : Call} (hc : c.login? = none) :
    slotsOf (calls ++ [c]) = slotsOf calls := by
  unfold slotsOf
  rw [List.filterMap_append, List.filterMap_cons_none hc, List.filterMap_nil, List.append_nil]

theorem performAll_append (calls : List Call) (c : Call) :
    performAll (calls ++ [c]) = perform (performAll calls) c := by
  unfold performAll
  rw [List.foldl_append]
  rfl

theorem fresh_append (calls : List Call) (c : Call) :
    Fresh (calls ++ [c]) ↔ Fresh calls ∧ FreshCall (performAll calls) c := by
  unfold Fresh
  rw [Run.along_append]
  exact and_congr_right fun _ => ⟨fun h => h.1, fun h => ⟨h, trivial⟩⟩

/-- A login is fresh when its id differs from those handed out. -/
theorem Represents.freshCall_iff {w : Store × History} {es : List SessionEntry}
    (hr : Represents w es) (env : AllocEnv) :
    FreshCall w (.alloc env) ↔
      (es.length < maxSessions → allocId env es.length ∉ ids w.2) := by
  simp only [FreshCall, Store.nextId, hr.layout.firstFree]
  split
  · rename_i hlt
    simp only [Option.map_some, Option.toList_some, List.mem_singleton, forall_eq, hlt,
      forall_const]
    rw [← hr.ids_eq]
    constructor
    · intro hfresh hm
      obtain ⟨e, he, hs⟩ := List.mem_map.mp hm
      refine hfresh e ?_ (hr.layout.valid e he) hs
      rw [hr.layout.slots]
      exact List.mem_append_left _ he
    · intro hnot e he hv hs
      rw [hr.layout.slots] at he
      rcases List.mem_append.mp he with he | he
      · exact hnot (List.mem_map.mpr ⟨e, he, hs⟩)
      · rw [List.eq_of_mem_replicate he] at hv
        cases hv
  · rename_i hge
    exact iff_of_true (fun _ h => absurd h List.not_mem_nil) fun h => absurd h hge

theorem ids_perform (w : Store × History) {c : Call} (hc : c.login? = none) :
    ids (perform w c).2 = ids w.2 := by
  have hid : idOf (c, (w.1.call c).2) = none := by
    cases c with
    | alloc env => cases hc
    | save sid st hand now => rfl
    | load sid st hand now => rfl
    | touch sid now => rfl
  simp [perform, ids_append, hid]

theorem ids_login (w : Store × History) (env : AllocEnv) :
    ids (perform w (.alloc env)).2 =
      ids w.2 ++ (if (ipcAllocSession w.1 env).2 = 0 then none
        else some (ipcAllocSession w.1 env).2).toList := by
  show ids (w.2 ++ [_]) = _
  rw [ids_append]
  rfl

theorem Represents.length_slots {w : Store × History} {es : List SessionEntry}
    (hr : Represents w es) {calls : List Call}
    (hids : ids w.2 = (slotsOf calls).map fun a => allocId a.1 a.2) :
    es.length = (slotsOf calls).length := by
  rw [← List.length_map (fun e : SessionEntry => e.sessionId), hr.ids_eq, hids, List.length_map]

/-- The ids handed out are those of the logins that got a slot. -/
theorem ids_of_fresh {calls : List Call} (hf : Fresh calls) :
    ids (performAll calls).2 = (slotsOf calls).map fun a => allocId a.1 a.2 := by
  induction calls using List.reverseRecOn with
  | nil => rfl
  | append_singleton calls c ih =>
    obtain ⟨hold, _⟩ := (fresh_append calls c).mp hf
    have ih := ih hold
    rw [performAll_append]
    cases hc : c.login? with
    | none => rw [ids_perform _ hc, slotsOf_other calls hc, ih]
    | some env =>
      obtain rfl := alloc_of_login hc
      obtain ⟨es, hr⟩ := represents_all hold
      have hlen := hr.length_slots ih
      rw [ids_login, slotsOf_login, ih]
      by_cases hroom : es.length < maxSessions
      · rw [(hr.layout.alloc_room env hroom).1, if_neg (allocId_ne_zero env _), if_pos (by omega),
          List.map_append, hlen]
        rfl
      · rw [hr.layout.alloc_full env (by omega), if_pos rfl, if_neg (by omega)]
        exact List.append_nil _

theorem fresh_iff (calls : List Call) :
    Fresh calls ↔ (slotsOf calls).Pairwise fun a b => ¬ Clash a b := by
  induction calls using List.reverseRecOn with
  | nil => exact iff_of_true trivial List.Pairwise.nil
  | append_singleton calls c ih =>
    rw [fresh_append]
    cases hc : c.login? with
    | none =>
      rw [slotsOf_other calls hc, ← ih]
      refine and_iff_left_of_imp fun _ => ?_
      cases c with
      | alloc env => cases hc
      | _ => trivial
    | some env =>
      obtain rfl := alloc_of_login hc
      rw [slotsOf_login]
      by_cases hroom : (slotsOf calls).length < maxSessions
      · rw [if_pos hroom, List.pairwise_append, ← ih]
        refine and_congr_right fun hold => ?_
        obtain ⟨es, hr⟩ := represents_all hold
        have hids := ids_of_fresh hold
        have hlen := hr.length_slots hids
        rw [hr.freshCall_iff env, hids, hlen]
        simp only [hroom, forall_const, List.pairwise_singleton, true_and, List.mem_singleton,
          forall_eq, List.mem_map, not_exists, not_and]
        have hclash := fun a => not_congr (allocId_eq_iff a (env, (slotsOf calls).length))
        exact forall_congr' fun a => forall_congr' fun _ => hclash a
      · rw [if_neg hroom, ← ih]
        refine and_iff_left_of_imp fun hold => ?_
        obtain ⟨es, hr⟩ := represents_all hold
        rw [hr.freshCall_iff env, hr.length_slots (ids_of_fresh hold)]
        exact fun h => absurd h hroom

/-- Over every sequence of calls on the zeroed store: each login is given an id no
other valid slot has, and by which its own slot is found, if and only if no two of
the logins that get a slot clash. -/
theorem ids_unique_iff (calls : List Call) :
    Run.Along perform UniqueLogin (Store.zero, []) calls ↔
      (slotsOf calls).Pairwise fun a b => ¬ Clash a b := by
  rw [← fresh_iff]
  exact Run.along_congr uniqueLogin_iff _ calls

/-- Three logins within two seconds. The first and the third worker have the same
sum and, as `time(NULL) ^ getpid()` agrees, the same random numbers. -/
theorem ids_not_unique :
    ¬ Run.Along perform UniqueLogin (Store.zero, [])
      [.alloc ⟨1700000001, 5003, 1804289383, 1700000001⟩,
        .alloc ⟨1700000001, 5001, 846930886, 1700000001⟩,
        .alloc ⟨1700000002, 5000, 1804289383, 1700000002⟩] := by
  rw [Run.along_congr uniqueLogin_iff]
  show ¬ Fresh _
  rw [fresh_iff]
  decide +kernel

end MiniTcg.Ipc
