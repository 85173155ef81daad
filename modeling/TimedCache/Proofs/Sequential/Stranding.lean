import TimedCache.Proofs.Sequential.Calls
import TimedCache.Proofs.Sequential.Firing

/-!
Calls that fail. A caller who cannot fix a deadline changes the contents and tells the worker
nothing. Once there was one, there is no other set that does not fail, and no other delete that
waits, so that from then on the cache does as the machine does that has run aground.
-/

namespace TimedCache

open Reference (find? without)

/-- No caller can fix the deadline of a set any more. -/
def Clock.Stuck {V : Type} (o : Options V) (clock : Clock) : Prop :=
  ∃ timeout, o.syncSetTimeout = some timeout ∧ clock.canAwait timeout = false

namespace Clock

variable {V : Type} {o : Options V} {clock : Clock}

theorem canAwait_of_advance {d : Span} {ms : Nat} (h : (clock.advance ms).canAwait d = true) :
    clock.canAwait d = true := by
  have hle : clock.elapsed.nanos ≤ (clock.advance ms).elapsed.nanos :=
    Nat.mul_le_mul_right 1000000 (Nat.le_add_right clock.sinceStart ms)
  unfold canAwait at h ⊢
  rw [decide_eq_true_iff] at h ⊢
  exact Nat.lt_of_le_of_lt (Nat.add_le_add_right hle d.nanos) h

/-- It does not get better with time. -/
theorem Stuck.advance (h : Stuck o clock) (ms : Nat) : Stuck o (clock.advance ms) := by
  obtain ⟨timeout, htimeout, hnever⟩ := h
  refine ⟨timeout, htimeout, ?_⟩
  rw [Bool.eq_false_iff] at hnever ⊢
  exact mt canAwait_of_advance hnever

theorem canAwait_second (hearly : clock.sinceStart < 2 ^ 63) :
    clock.canAwait (.ofSeconds 1) = true := by
  unfold canAwait elapsed Span.ofMillis Span.ofSeconds Span.ofParts steadySeconds
  rw [decide_eq_true_iff]
  dsimp only
  omega

end Clock

/-- A call of the plain machine fails only if its caller cannot fix a deadline. -/
theorem Reference.stuck_of_error {V : Type} {o : Options V} {m : Reference V} {call : Call V}
    {cause : Overflow} (hearly : m.clock.sinceStart < 2 ^ 63)
    (h : m.step o call = .error cause) : m.clock.Stuck o := by
  cases call with
  | set | setFor =>
    unfold step setFor setFits at h
    dsimp only at h
    cases htimeout : o.syncSetTimeout with
    | none =>
      rw [htimeout] at h
      cases h
    | some timeout =>
      refine ⟨timeout, htimeout, ?_⟩
      rw [Bool.eq_false_iff]
      intro hfits
      rw [htimeout] at h
      dsimp only at h
      rw [if_pos hfits] at h
      cases h
  | get key =>
    unfold step at h
    dsimp only at h
    split at h <;> cases h
  | status | len | clear | flush | advance => cases h
  | delete key =>
    unfold step at h
    dsimp only at h
    split at h
    · cases h
    · rename_i hfits
      rw [deleteFits, Bool.not_eq_true, Bool.or_eq_false_iff] at hfits
      have hnever := hfits.2
      unfold Options.deleteTimeout at hnever
      cases htimeout : o.syncSetTimeout with
      | none =>
        rw [htimeout, Option.getD_none, Clock.canAwait_second hearly] at hnever
        cases hnever
      | some timeout =>
        rw [htimeout, Option.getD_some] at hnever
        exact ⟨timeout, htimeout, hnever⟩

namespace Cache

variable {V : Type} {c : Cache V}

theorem setDeadlineFits_of_stuck (h : c.clock.Stuck c.options) : c.setDeadlineFits = false := by
  obtain ⟨timeout, htimeout, hnever⟩ := h
  unfold setDeadlineFits
  rw [htimeout]
  exact hnever

theorem deleteDeadlineFits_of_stuck (h : c.clock.Stuck c.options) (key : String) :
    c.deleteDeadlineFits key = (!c.options.syncDelete || (c.contents.occupant? key).isNone) := by
  obtain ⟨timeout, htimeout, hnever⟩ := h
  unfold deleteDeadlineFits Options.deleteTimeout
  rw [htimeout, Option.getD_some, hnever, Bool.or_false]

theorem respond_setFor (c : Cache V) (key : String) (value : V) (ttl : Span) :
    c.respond (.setFor key value ttl) =
      if c.setDeadlineFits then
        (.ok (.accepted (c.setFor key value ttl).1), (c.setFor key value ttl).2.settle)
      else (.error .deadline, (c.strandSet key value ttl).settle) := by
  unfold respond request trySetFor abandoned
  dsimp only
  cases c.setDeadlineFits <;> rfl

theorem respond_delete (c : Cache V) (key : String) :
    c.respond (.delete key) =
      if c.deleteDeadlineFits key then (.ok .done, (c.delete key).settle)
      else (.error .deadline, (c.strandDelete key).settle) := by
  unfold respond request tryDelete abandoned
  dsimp only
  cases c.deleteDeadlineFits key <;> rfl

end Cache

namespace Aground.Matches

variable {V : Type} {o : Options V} {c : Cache V} {m : Aground V}

/-- A set that fails changes what readers find. -/
theorem strandSet (h : Matches o c m) (key : String) (value : V) (ttl : Span) :
    Goes o c (c.strandSet key value ttl).settle m (m.store key value ttl) [] := by
  have hlists := h.lists.written key value ttl
  have hbeside : c.Beside { c with contents := c.written key value ttl } :=
    ⟨rfl, rfl, rfl, rfl, rfl, rfl, rfl⟩
  have hturns := (Recency.Frees.refl c.recency).turns m.created
  rw [Cache.strandSet_eq, (h.idle.beside hbeside).settle]
  have hstamp : m.clock.stampAfter ttl = c.clock.stampAfter ttl := by rw [h.toServes.clock]
  unfold Aground.store
  rw [hstamp]
  cases hfind : find? m.stored key with
  | some r =>
    obtain ⟨hr, rfl⟩ := (Reference.find?_eq_some_iff h.finds.keyed).mp hfind
    have hfinds := h.finds.overwrite hr value (c.clock.stampAfter ttl)
    have hwritten := Cache.written_of_occupant (h.finds.occupant hr) value ttl
    rw [hwritten] at hlists hbeside ⊢
    refine ⟨⟨rfl, Nat.le_refl _, hturns, by simp⟩, ?_, rfl⟩
    refine h.beside hbeside hfinds hlists h.rings rfl rfl rfl ?_ (.refl _)
    exact h.created.trans (Contents.size_entries_modify ..).symm
  | none =>
    have hkey := Reference.find?_eq_none_iff.mp hfind
    have hfinds : Finds ((c.created key value ttl).place c.nextSerial)
        ({ serial := m.created, key, value, stamp := c.clock.stampAfter ttl } :: m.stored) := by
      rw [h.created]
      exact h.finds.insert hkey value (c.clock.stampAfter ttl)
    have hwritten := Cache.written_of_vacant (h.finds.vacant hkey) value ttl
    have hmade : ((c.created key value ttl).place c.nextSerial).entries.size = m.created + 1 := by
      rw [Contents.entries_place, h.created]
      exact Contents.size_entries_create ..
    rw [hwritten] at hlists hbeside ⊢
    refine ⟨⟨rfl, Nat.le_succ _, hturns, by simp⟩, ?_, rfl⟩
    exact h.beside hbeside hfinds hlists h.rings rfl rfl rfl hmade.symm (.refl _)

/-- A delete that fails hides the entry from readers. -/
theorem strandDelete (h : Matches o c m) {r : Record V} (hr : r ∈ m.stored) :
    Goes o c (c.strandDelete r.key).settle m { m with stored := without m.stored r.serial } [] := by
  have hbeside : c.Beside { c with contents := (c.contents.takeKey r.key).2 } :=
    ⟨rfl, rfl, rfl, rfl, rfl, rfl, rfl⟩
  have htaken := h.finds.wellKeyed.vacated_takeKey r.key
  rw [h.finds.occupant hr] at htaken
  have hlists := h.lists.of_entries_eq fun s => Contents.entry?_takeKey c.contents r.key s
  unfold Cache.strandDelete
  rw [Cache.detach_eq, (h.idle.beside hbeside).settle]
  refine ⟨⟨rfl, Nat.le_refl _, (Recency.Frees.refl c.recency).turns _, by simp⟩, ?_, rfl⟩
  exact h.beside hbeside (h.finds.lost htaken) hlists h.rings rfl rfl rfl
    (h.created.trans htaken.size_entries.symm) (.refl _)

end Aground.Matches

end TimedCache
