import Xv6Paging.Fs.CacheData

/-!
# Runs of the buffer cache that compute

A process is told what to do, and does it if it can.  What it does is a step of the system, so that
a list of such orders gives a run.
-/

namespace Xv6Paging

open StateHalt LinkedRing

/-- What a process is told to do: to go on in `bread`, in `brelse`, in `commit` or to the next step
of the protocol, or in its operation to read, to modify, to log or to release a block. -/
inductive Act
  | go
  | bread (b : Nat)
  | modify (b : Nat) (x : Block)
  | log (b : Nat)
  | brelse (b : Nat)

theorem Pos.next_ne {A : LogArea} {lh : List Nat} {pos : Pos} {c : Call}
    (h : pos.call A lh = some c) : pos.next ≠ pos := by
  cases pos with
  | writeLog t place => cases place <;> simp [Pos.next]
  | head place => cases place <;> simp [Pos.next]
  | install t place => cases place <;> simp [Pos.next]
  | done => cases h

namespace CacheSystem

variable {ι : Type} [DecidableEq ι] {A : LogArea} {s s' : CacheSystem ι} {i : ι}

/-- The buffer of the block `b` that the process holds. -/
def held (s : CacheSystem ι) (i : ι) (b : Nat) : Option (Fin nbuf) :=
  (List.finRange nbuf).find? fun k =>
    k ∈ (s.loc i).holds ∧ (s.bc.buf k).blockno = b ∧ (s.bc.buf k).owner = some i

/-- A process issues a call. -/
def issue (A : LogArea) (s : CacheSystem ι) (i : ι) : Call → Option (CacheSystem ι)
  | .bread b =>
    match bgetSlot rootdev b s.bc with
    | .ok k bc => some (s.lookup i b k bc)
    | .error _ _ => none
  | .copy dst src =>
    (s.held i dst).bind fun k => (s.held i src).map fun k' => s.modifyBuf i k (s.bc.buf k').data
  | .install dst src =>
    (s.held i dst).bind fun k => (s.held i src).map fun k' => s.installBuf i k (s.bc.buf k').data
  | .store => (s.held i A.start).map fun k => s.modifyBuf i k (storeHead
      ⟨s.group.log.lh.length, fun j => BitVec.ofNat 32 (s.group.log.lh.getD j 0)⟩
      (s.bc.buf k).data)
  | .bwrite b => (s.held i b).map (s.bwriteBuf i)
  | .unpin b => (s.held i b).map (s.unpinBuf i)
  | .brelse b => (s.held i b).bind fun k =>
      if k ∈ (s.loc i).dirty then none else some (s.release i k)

/-- A process does as it is told. -/
def act (A : LogArea) (s : CacheSystem ι) : ι × Act → Option (CacheSystem ι)
  | (i, a) =>
    match (s.loc i).busy, a, s.group.pc i with
    | .acquiring k b, .go, _ => if (s.bc.buf k).owner = none then some (s.acquire i k b) else none
    | .filling k _, .go, _ => some (s.fill i k)
    | .releasing k, .go, _ => some (s.drop i k)
    | .idle, .go, .commit _ =>
      match (s.loc i).pos.call A s.group.log.lh with
      | some c => s.issue A i c
      | none => (s.group.go i).map s.protocol
    | .idle, .go, _ => (s.group.go i).map s.protocol
    | .idle, .bread b, .inside => s.issue A i (.bread b)
    | .idle, .brelse b, .inside => s.issue A i (.brelse b)
    | .idle, .modify b x, .inside => (s.held i b).map fun k => s.modifyBuf i k x
    | .idle, .log b, .inside => (s.held i b).bind fun k =>
        if A.start ≤ b ∧ b < A.start + A.size then none
        else
          match logWrite A.size b s.group.log with
          | .ok _ log => some (s.logWriteBuf i k log)
          | .error _ _ => none
    | _, _, _ => none

/-- Neither the disk nor the modifications change, or the protocol or the committer shows that they
do. -/
def Shows (s s' : CacheSystem ι) : Prop :=
  s'.disk = s.disk ∧ s'.mods = s.mods ∨ s'.group.hist.writes ≠ s.group.hist.writes ∨
    ∃ i, ¬s.Outside i ∧ (s'.loc i).pos ≠ (s.loc i).pos

theorem held_spec {b : Nat} {k : Fin nbuf} (h : s.held i b = some k) :
    k ∈ (s.loc i).holds ∧ (s.bc.buf k).blockno = b ∧ (s.bc.buf k).owner = some i := by
  simpa using List.find?_some h

theorem issue_step {c : Call} (hidle : (s.loc i).busy = .idle) (hmay : s.May A i c)
    (hout : s.Outside i → ∃ b, c = .bread b ∨ c = .brelse b) (h : s.issue A i c = some s') :
    CacheStep A s s' ∧ s.Shows s' := by
  cases c with
  | bread b =>
    simp only [issue] at h
    split at h <;> cases h
    exact ⟨.lookup i hidle hmay ‹_›, .inl ⟨rfl, rfl⟩⟩
  | copy dst src =>
    simp only [issue, Option.bind_eq_some_iff, Option.map_eq_some_iff] at h
    obtain ⟨k, hk, k', hk', rfl⟩ := h
    obtain ⟨hmem, rfl, -⟩ := held_spec hk
    obtain ⟨hmem', rfl, -⟩ := held_spec hk'
    exact ⟨.copy i k k' hidle (fun h => by simpa using hout h) hmem hmem' hmay, .inl ⟨rfl, rfl⟩⟩
  | install dst src =>
    simp only [issue, Option.bind_eq_some_iff, Option.map_eq_some_iff] at h
    obtain ⟨k, hk, k', hk', rfl⟩ := h
    obtain ⟨hmem, rfl, -⟩ := held_spec hk
    obtain ⟨hmem', rfl, -⟩ := held_spec hk'
    exact ⟨.install i k k' hidle (fun h => by simpa using hout h) hmem hmem' hmay, .inl ⟨rfl, rfl⟩⟩
  | store =>
    simp only [issue, Option.map_eq_some_iff] at h
    obtain ⟨k, hk, rfl⟩ := h
    obtain ⟨hk, hb, -⟩ := held_spec hk
    exact ⟨.store i k hidle (fun h => by simpa using hout h) hk hb hmay, .inl ⟨rfl, rfl⟩⟩
  | bwrite b =>
    simp only [issue, Option.map_eq_some_iff] at h
    obtain ⟨k, hk, rfl⟩ := h
    obtain ⟨-, rfl, hown⟩ := held_spec hk
    have hin : ¬s.Outside i := fun h => by simpa using hout h
    refine ⟨.bwrite i k hidle hown hmay fun _ h => absurd h hin, .inr (.inr ⟨i, hin, ?_⟩)⟩
    obtain ⟨stage, hi⟩ := stage_of_not_outside hin
    rw [(s.bwriteBuf_touches i k).1.self]
    exact Pos.next_ne (hmay.call_eq hi)
  | unpin b =>
    simp only [issue, Option.map_eq_some_iff] at h
    obtain ⟨k, hk, rfl⟩ := h
    obtain ⟨hmem, rfl, -⟩ := held_spec hk
    exact ⟨.unpin i k hidle (fun h => by simpa using hout h) hmem hmay, .inl ⟨rfl, rfl⟩⟩
  | brelse b =>
    simp only [issue, Option.bind_eq_some_iff] at h
    obtain ⟨k, hk, h⟩ := h
    obtain ⟨-, rfl, hown⟩ := held_spec hk
    split at h <;> cases h
    exact ⟨.release i k hidle hown ‹_› hmay, .inl ⟨rfl, rfl⟩⟩

theorem protocol_step {g : System ι} (hidle : (s.loc i).busy = .idle)
    (hend : ∀ stage, s.group.pc i = .commit stage → (s.loc i).pos.call A s.group.log.lh = none)
    (h : s.group.go i = some g) : CacheStep A s (s.protocol g) := by
  obtain ⟨hstep, hw, hne⟩ := System.go_step h
  refine .protocol hstep hw (fun j hj hj' => ?_) fun j stage hj hj' => ?_
  · by_cases hji : j = i
    · exact hji ▸ hidle
    · exact absurd (hne j hji (by simp [hj])) (hj ▸ hj')
  · by_cases hji : j = i
    · exact ⟨hji ▸ hidle, hji ▸ hend stage (hji ▸ hj)⟩
    · exact absurd (hne j hji (by simp [hj])) hj'

theorem act_step {m : ι × Act} (h : s.act A m = some s') : CacheStep A s s' ∧ s.Shows s' := by
  obtain ⟨i, a⟩ := m
  simp only [act] at h
  split at h
  · rename_i hbusy
    split at h <;> cases h
    exact ⟨.acquire i hbusy ‹_›, .inl ⟨rfl, rfl⟩⟩
  · rename_i hbusy
    cases h
    exact ⟨.fill i hbusy, .inl ⟨rfl, rfl⟩⟩
  · rename_i hbusy
    cases h
    exact ⟨.drop i hbusy, .inl ⟨rfl, rfl⟩⟩
  · rename_i stage hbusy hi
    split at h
    · rename_i c hc
      exact issue_step hbusy (by simpa [May, hi] using hc) (fun hout => absurd hi (hout stage)) h
    · rename_i hc
      obtain ⟨g, hg, rfl⟩ := Option.map_eq_some_iff.mp h
      exact ⟨protocol_step hbusy (fun _ _ => hc) hg, .inl ⟨rfl, rfl⟩⟩
  · rename_i hbusy hi
    obtain ⟨g, hg, rfl⟩ := Option.map_eq_some_iff.mp h
    exact ⟨protocol_step hbusy (fun stage h => absurd h (hi stage)) hg, .inl ⟨rfl, rfl⟩⟩
  · rename_i b hbusy hi
    exact issue_step hbusy (by simp [May, hi]) (fun _ => ⟨b, .inl rfl⟩) h
  · rename_i b hbusy hi
    exact issue_step hbusy (by simp [May, hi]) (fun _ => ⟨b, .inr rfl⟩) h
  · rename_i b x hbusy hi
    obtain ⟨k, hk, rfl⟩ := Option.map_eq_some_iff.mp h
    obtain ⟨-, -, hown⟩ := held_spec hk
    exact ⟨.modify i k x hbusy (fun stage h => by simp [hi] at h) hown, .inl ⟨rfl, rfl⟩⟩
  · rename_i b hbusy hi
    obtain ⟨k, hk, h⟩ := Option.bind_eq_some_iff.mp h
    obtain ⟨-, rfl, hown⟩ := held_spec hk
    split at h
    · cases h
    · rename_i hhome
      split at h <;> cases h
      exact ⟨.logWrite i k hbusy hi hown hhome ‹_›, .inr (.inl (List.cons_ne_self _ _))⟩
  · cases h

end CacheSystem

end Xv6Paging
