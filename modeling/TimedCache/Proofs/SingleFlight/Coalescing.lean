import Mathlib.Data.List.Nodup
import Mathlib.Tactic
import TimedCache.SingleFlight.Callers

/-!
Callers of shared loads, in any order of their steps. A load runs as long as its leader is
unfinished, and only its leader can end it; what came of it stays. A follower holds on to the load
that was in flight when it started, so it receives what this load's leader published, whoever leads
by the time it looks.
-/

namespace TimedCache

namespace Callers

variable {V : Type}

/-- A step of one caller, told by its name. -/
inductive Act (V : Type) where
  | start (name key : String)
  | finish (name : String) (result : Except CacheError V)
  | cancel (name : String)
  | look (name : String)

/-- The caller that takes the step. -/
def Act.by : Act V → String
  | .start name _ => name
  | .finish name _ => name
  | .cancel name => name
  | .look name => name

/-- Whether the step does more for a caller than to look for its result. -/
def Act.moves (name : String) : Act V → Bool
  | .look _ => false
  | act => act.by == name

def step (c : Callers V) : Act V → Callers V
  | .start name key => (c.start name key).2
  | .finish name result => (c.finish name result).2
  | .cancel name => (c.cancel name).2
  | .look name => (c.look name).2

def run (c : Callers V) (acts : List (Act V)) : Callers V := acts.foldl step c

/-- An unfinished caller that runs the load of its key. -/
def Leads (c : Callers V) (name key : String) : Prop :=
  ∃ call, c.find? name = some { key, seat := .leader call }

/-- An unfinished caller that waits for the load of another one. -/
def Waits (c : Callers V) (name key : String) : Prop :=
  ∃ call, c.find? name = some { key, seat := .follower call }

/-- Dropping a key from a table takes its value away and no other. -/
theorem lookup_filter_ne {α : Type} (table : List (String × α)) (key other : String) :
    (table.filter fun entry => entry.1 != key).lookup other =
      if other = key then none else table.lookup other := by
  induction table with
  | nil => simp
  | cons first rest ih =>
    obtain ⟨third, a⟩ := first
    rw [List.filter_cons, List.lookup_cons]
    by_cases hthird : third = key
    · subst hthird
      have hdrop : (third != third) = false := by simp
      rw [hdrop, if_neg Bool.false_ne_true, ih]
      split
      · rfl
      · rename_i hne
        have hother : (other == third) = false := by simpa using hne
        rw [hother]
    · have hkeep : (third != key) = true := by simpa using hthird
      rw [hkeep, if_pos rfl, List.lookup_cons, ih]
      by_cases hother : other = third
      · subst hother
        simp [hthird]
      · have hne : (other == third) = false := by simpa using hother
        rw [hne]

theorem lookup_cons_eq {α : Type} (table : List (String × α)) (key other : String) (a : α) :
    ((key, a) :: table).lookup other = if other = key then some a else table.lookup other := by
  rw [List.lookup_cons]
  by_cases hother : other = key
  · simp [hother]
  · have hne : (other == key) = false := by simpa using hother
    rw [hne, if_neg hother]

/-! ## What the steps do -/

variable {c : Callers V} {name other lead key : String} {call : CallId}

theorem find?_forget (c : Callers V) (name other : String) :
    (c.forget name).find? other = if other = name then none else c.find? other :=
  lookup_filter_ne c.unfinished name other

/-- The callers after a leader's load came to an end, one way or the other. -/
def settled (c : Callers V) (name key : String) (call : CallId) (p : Progress V) : Callers V :=
  { c.forget name with flight := c.flight.settle key call p }

theorem find?_settled (c : Callers V) (name key other : String) (call : CallId) (p : Progress V) :
    (c.settled name key call p).find? other = if other = name then none else c.find? other :=
  c.find?_forget name other

theorem cancel_of_none (h : c.find? name = none) : c.cancel name = (false, c) := by
  unfold cancel
  rw [h]

theorem cancel_of_leader (h : c.find? name = some { key, seat := .leader call }) :
    c.cancel name = (true, c.settled name key call .abandoned) := by
  unfold cancel
  rw [h]
  rfl

theorem cancel_of_follower (h : c.find? name = some { key, seat := .follower call }) :
    c.cancel name = (true, c.forget name) := by
  unfold cancel
  rw [h]
  rfl

theorem finish_of_leader (h : c.find? name = some { key, seat := .leader call })
    (result : Except CacheError V) :
    c.finish name result = (.done result, c.settled name key call (.published result)) := by
  unfold finish
  rw [h]
  rfl

theorem finish_of_follower (h : c.find? name = some { key, seat := .follower call })
    (result : Except CacheError V) : c.finish name result = c.look name := by
  unfold finish
  rw [h]

theorem finish_of_none (h : c.find? name = none) (result : Except CacheError V) :
    c.finish name result = (.gone, c) := by
  unfold finish look
  rw [h]

theorem look_of_none (h : c.find? name = none) : c.look name = (.gone, c) := by
  unfold look
  rw [h]

theorem look_of_leader (h : c.find? name = some { key, seat := .leader call }) :
    c.look name = (.pending, c) := by
  unfold look
  rw [h]

theorem look_of_follower (h : c.find? name = some { key, seat := .follower call }) :
    c.look name =
      match c.flight.outcome? key call with
      | none => (.pending, c)
      | some result => (.done result, c.forget name) := by
  unfold look
  cases houtcome : c.flight.outcome? key call <;> simp only [h, houtcome]

/-- A new caller takes its seat. -/
def seated (c : Callers V) (name key : String) : Callers V :=
  { flight := (c.flight.enter key).2
    unfinished := (name, { key, seat := (c.flight.enter key).1 }) :: c.unfinished }

theorem start_snd (c : Callers V) (name key : String) :
    (c.start name key).2 = (c.cancel name).2.seated name key := rfl

theorem find?_seated (c : Callers V) (name key other : String) :
    (c.seated name key).find? other =
      if other = name then some { key, seat := (c.flight.enter key).1 } else c.find? other :=
  lookup_cons_eq c.unfinished name other _

theorem find?_cancel (c : Callers V) (name other : String) :
    (c.cancel name).2.find? other = if other = name then none else c.find? other := by
  cases hname : c.find? name with
  | none =>
    rw [cancel_of_none hname]
    split
    · rename_i heq
      rw [heq, hname]
    · rfl
  | some caller =>
    obtain ⟨key, call | call⟩ := caller
    · rw [cancel_of_leader hname, find?_settled]
    · rw [cancel_of_follower hname, find?_forget]

/-- Looking either finishes the caller or changes nothing. -/
theorem look_snd (c : Callers V) (name : String) :
    (c.look name).2 = c ∨ (∃ key call, c.find? name = some { key, seat := .follower call }) ∧
      (c.look name).2 = c.forget name := by
  cases hname : c.find? name with
  | none => exact Or.inl (by rw [look_of_none hname])
  | some caller =>
    obtain ⟨key, call | call⟩ := caller
    · exact Or.inl (by rw [look_of_leader hname])
    · rw [look_of_follower hname]
      split
      · exact Or.inl rfl
      · exact Or.inr ⟨⟨key, call, rfl⟩, rfl⟩

theorem find?_look_of_ne (hne : other ≠ name) : (c.look name).2.find? other = c.find? other := by
  rcases c.look_snd name with hsame | ⟨_, hforget⟩
  · rw [hsame]
  · rw [hforget, find?_forget, if_neg hne]

/-- A step leaves the other callers' parts alone. -/
theorem find?_step_of_ne (act : Act V) (hne : act.by ≠ other) :
    (c.step act).find? other = c.find? other := by
  cases act with
  | start name key =>
    have hother : other ≠ name := fun heq => hne heq.symm
    change (c.start name key).2.find? other = _
    rw [start_snd, find?_seated, if_neg hother, find?_cancel, if_neg hother]
  | finish name result =>
    have hother : other ≠ name := fun heq => hne heq.symm
    change (c.finish name result).2.find? other = _
    cases hname : c.find? name with
    | none => rw [finish_of_none hname]
    | some caller =>
      obtain ⟨key, call | call⟩ := caller
      · rw [finish_of_leader hname, find?_settled, if_neg hother]
      · rw [finish_of_follower hname, find?_look_of_ne hother]
  | cancel name =>
    have hother : other ≠ name := fun heq => hne heq.symm
    change (c.cancel name).2.find? other = _
    rw [find?_cancel, if_neg hother]
  | look name =>
    have hother : other ≠ name := fun heq => hne heq.symm
    exact find?_look_of_ne hother

/-! ## Loads and their leaders -/

/-- Every running load has one unfinished leader, every unfinished leader a running load, and the
table holds the keys of these loads. -/
structure Orderly (c : Callers V) : Prop where
  keys : (c.flight.inFlight.map (·.1)).Nodup
  table : ∀ key call, c.flight.inFlight.lookup key = some call ↔
    ∃ name, c.find? name = some { key, seat := .leader call }
  running : ∀ call, c.flight.calls[call]? = some .running ↔
    ∃ name key, c.find? name = some { key, seat := .leader call }
  alone : ∀ {name other key key' call}, c.find? name = some { key, seat := .leader call } →
    c.find? other = some { key := key', seat := .leader call } → name = other

theorem orderly_start : Orderly ({} : Callers V) where
  keys := List.nodup_nil
  table key call := by simp [find?]
  running call := by simp [find?]
  alone h := by simp [find?] at h

namespace Orderly

theorem leader_unique (h : c.Orderly) (hname : c.Leads name key) (hother : c.Leads other key) :
    name = other := by
  obtain ⟨call, hcall⟩ := hname
  obtain ⟨call', hcall'⟩ := hother
  have hfirst := (h.table key call).mpr ⟨name, hcall⟩
  rw [(h.table key call').mpr ⟨other, hcall'⟩] at hfirst
  cases hfirst
  exact h.alone hcall hcall'

theorem isSome_lookup_iff (h : c.Orderly) :
    (c.flight.inFlight.lookup key).isSome ↔ ∃ name, c.Leads name key := by
  rw [Option.isSome_iff_exists]
  constructor
  · rintro ⟨call, hcall⟩
    obtain ⟨name, hname⟩ := (h.table key call).mp hcall
    exact ⟨name, call, hname⟩
  · rintro ⟨name, call, hname⟩
    exact ⟨call, (h.table key call).mpr ⟨name, hname⟩⟩

/-- The end of a load takes its key out of the table, and its leader is finished. -/
theorem settled (h : c.Orderly) (hname : c.find? name = some { key, seat := .leader call })
    {p : Progress V} (hp : p ≠ .running) : (c.settled name key call p).Orderly where
  keys := by
    refine h.keys.sublist ?_
    exact List.Sublist.map _ List.filter_sublist
  table other call' := by
    have hlookup : (c.settled name key call p).flight.inFlight.lookup other =
      if other = key then none else c.flight.inFlight.lookup other :=
      lookup_filter_ne c.flight.inFlight key other
    rw [hlookup]
    constructor
    · intro hcall
      split at hcall
      · cases hcall
      · rename_i hne
        obtain ⟨leader, hleader⟩ := (h.table other call').mp hcall
        refine ⟨leader, ?_⟩
        rw [find?_settled, if_neg, hleader]
        rintro rfl
        rw [hname] at hleader
        cases hleader
        exact hne rfl
    · rintro ⟨leader, hleader⟩
      rw [find?_settled] at hleader
      split at hleader
      · cases hleader
      · rename_i hne
        rw [if_neg, h.table]
        · exact ⟨leader, hleader⟩
        · rintro rfl
          exact hne (h.leader_unique ⟨call', hleader⟩ ⟨call, hname⟩)
  running call' := by
    change (c.flight.calls.modify call fun _ => p)[call']? = some .running ↔ _
    rw [Array.getElem?_modify]
    constructor
    · intro hrunning
      split at hrunning
      · obtain ⟨_, _, heq⟩ := Option.map_eq_some_iff.mp hrunning
        exact absurd heq hp
      · rename_i hne
        obtain ⟨leader, other, hleader⟩ := (h.running call').mp hrunning
        refine ⟨leader, other, ?_⟩
        rw [find?_settled, if_neg, hleader]
        rintro rfl
        rw [hname] at hleader
        cases hleader
        exact hne rfl
    · rintro ⟨leader, other, hleader⟩
      rw [find?_settled] at hleader
      split at hleader
      · cases hleader
      · rename_i hne
        rw [if_neg, h.running]
        · exact ⟨leader, other, hleader⟩
        · rintro rfl
          exact hne (h.alone hleader hname)
  alone hfirst hsecond := by
    rw [find?_settled] at hfirst hsecond
    split at hfirst
    · cases hfirst
    · split at hsecond
      · cases hsecond
      · exact h.alone hfirst hsecond

/-- Only the loads and their leaders count. -/
theorem of_same_leaders {c' : Callers V} (h : c.Orderly) (hflight : c'.flight = c.flight)
    (hleads : ∀ name key call, c'.find? name = some { key, seat := .leader call } ↔
      c.find? name = some { key, seat := .leader call }) : c'.Orderly where
  keys := by
    rw [hflight]
    exact h.keys
  table key call := by
    simp only [hleads, hflight]
    exact h.table key call
  running call := by
    simp only [hleads, hflight]
    exact h.running call
  alone hfirst hsecond := h.alone ((hleads _ _ _).mp hfirst) ((hleads _ _ _).mp hsecond)

/-- A follower that is finished or cancelled changes nothing about the loads. -/
theorem forget (h : c.Orderly) (hname : c.find? name = some { key, seat := .follower call }) :
    (c.forget name).Orderly := by
  refine h.of_same_leaders rfl fun leader other call' => ?_
  rw [find?_forget]
  split
  · rename_i heq
    rw [heq, hname]
    simp
  · rfl

theorem cancel (h : c.Orderly) (name : String) : (c.cancel name).2.Orderly := by
  cases hname : c.find? name with
  | none =>
    rw [cancel_of_none hname]
    exact h
  | some caller =>
    obtain ⟨key, call | call⟩ := caller
    · rw [cancel_of_leader hname]
      exact h.settled hname (by simp)
    · rw [cancel_of_follower hname]
      exact h.forget hname

theorem look (h : c.Orderly) (name : String) : (c.look name).2.Orderly := by
  rcases c.look_snd name with hsame | ⟨⟨key, call, hname⟩, hforget⟩
  · rw [hsame]
    exact h
  · rw [hforget]
    exact h.forget hname

/-- A caller of a key in flight follows, and changes nothing about the loads. -/
theorem seated_behind (h : c.Orderly) (hname : c.find? name = none)
    (hkey : c.flight.inFlight.lookup key = some call) : (c.seated name key).Orderly := by
  have henter : c.flight.enter key = (.follower call, c.flight) := by
    unfold SingleFlight.enter
    rw [hkey]
  refine h.of_same_leaders ?_ fun leader other call' => ?_
  · unfold Callers.seated
    rw [henter]
  · rw [find?_seated, henter]
    split
    · rename_i heq
      rw [heq, hname]
      simp
    · rfl

/-- The load of an unfinished leader has been begun. -/
theorem call_lt (h : c.Orderly) (hleader : c.find? name = some { key, seat := .leader call }) :
    call < c.flight.calls.size :=
  (Array.getElem?_eq_some_iff.mp ((h.running call).mpr ⟨name, key, hleader⟩)).1

/-- A caller of a key that is not in flight leads a new load. -/
theorem seated_ahead (h : c.Orderly) (hname : c.find? name = none)
    (hkey : c.flight.inFlight.lookup key = none) : (c.seated name key).Orderly := by
  have henter : c.flight.enter key = (.leader c.flight.calls.size,
      { calls := c.flight.calls.push .running
        inFlight := (key, c.flight.calls.size) :: c.flight.inFlight }) := by
    unfold SingleFlight.enter
    rw [hkey]
  have hfind (other : String) : (c.seated name key).find? other =
      if other = name then some { key, seat := .leader c.flight.calls.size }
      else c.find? other := by
    rw [find?_seated, henter]
  have hflight : (c.seated name key).flight =
      { calls := c.flight.calls.push .running
        inFlight := (key, c.flight.calls.size) :: c.flight.inFlight } := by
    unfold Callers.seated
    rw [henter]
  have hne {leader other : String} {call : CallId}
      (hleader : c.find? leader = some { key := other, seat := .leader call }) :
      leader ≠ name := by
    rintro rfl
    rw [hname] at hleader
    cases hleader
  constructor
  · rw [hflight, List.map_cons, List.nodup_cons]
    refine ⟨?_, h.keys⟩
    intro hin
    obtain ⟨⟨other, call⟩, hmem, rfl⟩ := List.mem_map.mp hin
    have hout := List.lookup_eq_none_iff.mp hkey (other, call) hmem
    simp at hout
  · intro other call
    rw [hflight, lookup_cons_eq]
    constructor
    · intro hcall
      split at hcall
      · rename_i heq
        cases hcall
        exact ⟨name, by rw [hfind, if_pos rfl, heq]⟩
      · obtain ⟨leader, hleader⟩ := (h.table other call).mp hcall
        exact ⟨leader, by rw [hfind, if_neg (hne hleader), hleader]⟩
    · rintro ⟨leader, hleader⟩
      rw [hfind] at hleader
      split at hleader
      · cases hleader
        exact if_pos rfl
      · rw [if_neg, h.table]
        · exact ⟨leader, hleader⟩
        · rintro rfl
          rw [(h.table other call).mpr ⟨leader, hleader⟩] at hkey
          cases hkey
  · intro call
    rw [hflight, Array.getElem?_push]
    constructor
    · intro hrunning
      split at hrunning
      · rename_i heq
        exact ⟨name, key, by rw [hfind, if_pos rfl, heq]⟩
      · obtain ⟨leader, other, hleader⟩ := (h.running call).mp hrunning
        exact ⟨leader, other, by rw [hfind, if_neg (hne hleader), hleader]⟩
    · rintro ⟨leader, other, hleader⟩
      rw [hfind] at hleader
      split at hleader
      · cases hleader
        exact if_pos rfl
      · rw [if_neg (Nat.ne_of_lt (h.call_lt hleader)), h.running]
        exact ⟨leader, other, hleader⟩
  -- The loads of the other leaders were there before, so the new one is not among them.
  · intro first second other other' call hfirst hsecond
    rw [hfind] at hfirst hsecond
    split at hfirst
    · rename_i heq
      cases hfirst
      split at hsecond
      · rename_i heq'
        rw [heq, heq']
      · exact absurd (h.call_lt hsecond) (Nat.lt_irrefl _)
    · split at hsecond
      · cases hsecond
        exact absurd (h.call_lt hfirst) (Nat.lt_irrefl _)
      · exact h.alone hfirst hsecond

theorem seated (h : c.Orderly) (hname : c.find? name = none) (key : String) :
    (c.seated name key).Orderly := by
  cases hkey : c.flight.inFlight.lookup key with
  | some call => exact h.seated_behind hname hkey
  | none => exact h.seated_ahead hname hkey

theorem start (h : c.Orderly) (name key : String) : (c.start name key).2.Orderly := by
  rw [start_snd]
  apply (h.cancel name).seated
  rw [find?_cancel, if_pos rfl]

theorem finish (h : c.Orderly) (name : String) (result : Except CacheError V) :
    (c.finish name result).2.Orderly := by
  cases hname : c.find? name with
  | none =>
    rw [finish_of_none hname]
    exact h
  | some caller =>
    obtain ⟨key, call | call⟩ := caller
    · rw [finish_of_leader hname]
      exact h.settled hname (by simp)
    · rw [finish_of_follower hname]
      exact h.look name

theorem step (h : c.Orderly) (act : Act V) : (c.step act).Orderly := by
  cases act with
  | start name key => exact h.start name key
  | finish name result => exact h.finish name result
  | cancel name => exact h.cancel name
  | look name => exact h.look name

theorem run (h : c.Orderly) (acts : List (Act V)) : (c.run acts).Orderly := by
  induction acts generalizing c with
  | nil => exact h
  | cons act rest ih => exact ih (h.step act)

/-- Without unfinished callers no load is in flight. -/
theorem inFlight_eq_nil (h : c.Orderly) (hnone : ∀ name, c.find? name = none) :
    c.flight.inFlight = [] := by
  cases hflight : c.flight.inFlight with
  | nil => rfl
  | cons first rest =>
    obtain ⟨key, call⟩ := first
    have hlookup : c.flight.inFlight.lookup key = some call := by
      rw [hflight, lookup_cons_eq, if_pos rfl]
    obtain ⟨name, hname⟩ := (h.table key call).mp hlookup
    rw [hnone] at hname
    cases hname

/-! ## What followers receive -/

/-- What came of a load does not change any more. -/
theorem calls_settled (h : c.Orderly) (hname : c.find? name = some { key, seat := .leader call })
    {other : CallId} {p q : Progress V} (hother : c.flight.calls[other]? = some q)
    (hq : q ≠ .running) : (c.settled name key call p).flight.calls[other]? = some q := by
  change (c.flight.calls.modify call fun _ => p)[other]? = some q
  rw [Array.getElem?_modify, if_neg, hother]
  rintro rfl
  have hrunning := (h.running call).mpr ⟨name, key, hname⟩
  rw [hother] at hrunning
  exact hq (Option.some.inj hrunning)

theorem calls_cancel (h : c.Orderly) (name : String) {call : CallId} {q : Progress V}
    (hcall : c.flight.calls[call]? = some q) (hq : q ≠ .running) :
    (c.cancel name).2.flight.calls[call]? = some q := by
  cases hname : c.find? name with
  | none => rwa [cancel_of_none hname]
  | some caller =>
    obtain ⟨key, lead | lead⟩ := caller
    · rw [cancel_of_leader hname]
      exact h.calls_settled hname hcall hq
    · rwa [cancel_of_follower hname]

theorem calls_look (c : Callers V) (name : String) :
    (c.look name).2.flight.calls = c.flight.calls := by
  rcases c.look_snd name with hsame | ⟨_, hforget⟩
  · rw [hsame]
  · rw [hforget]
    rfl

theorem calls_seated (c : Callers V) (name key : String) {call : CallId} {q : Progress V}
    (hcall : c.flight.calls[call]? = some q) :
    (c.seated name key).flight.calls[call]? = some q := by
  unfold Callers.seated SingleFlight.enter
  split
  · exact hcall
  · have hlt : call < c.flight.calls.size := (Array.getElem?_eq_some_iff.mp hcall).1
    rw [Array.getElem?_push, if_neg (Nat.ne_of_lt hlt)]
    exact hcall

theorem calls_step (h : c.Orderly) (act : Act V) {call : CallId} {q : Progress V}
    (hcall : c.flight.calls[call]? = some q) (hq : q ≠ .running) :
    (c.step act).flight.calls[call]? = some q := by
  cases act with
  | start name key =>
    change (c.start name key).2.flight.calls[call]? = some q
    rw [start_snd]
    exact calls_seated _ name key (h.calls_cancel name hcall hq)
  | finish name result =>
    change (c.finish name result).2.flight.calls[call]? = some q
    cases hname : c.find? name with
    | none => rwa [finish_of_none hname]
    | some caller =>
      obtain ⟨key, lead | lead⟩ := caller
      · rw [finish_of_leader hname]
        exact h.calls_settled hname hcall hq
      · rwa [finish_of_follower hname, calls_look]
  | cancel name => exact h.calls_cancel name hcall hq
  | look name =>
    change (c.look name).2.flight.calls[call]? = some q
    rwa [calls_look]

/-- A follower keeps its seat, and the outcome of its load, until it looks. -/
theorem follower_run (h : c.Orderly) {q : Progress V}
    (hname : c.find? name = some { key, seat := .follower call })
    (hcall : c.flight.calls[call]? = some q) (hq : q ≠ .running) {acts : List (Act V)}
    (hothers : ∀ act ∈ acts, act.by ≠ name) :
    (c.run acts).find? name = some { key, seat := .follower call } ∧
      (c.run acts).flight.calls[call]? = some q := by
  induction acts generalizing c with
  | nil => exact ⟨hname, hcall⟩
  | cons act rest ih =>
    apply ih (h.step act)
    · rw [find?_step_of_ne act (hothers act List.mem_cons_self), hname]
    · exact h.calls_step act hcall hq
    · exact fun other hin => hothers other (List.mem_cons_of_mem _ hin)

/-- While the leader is unfinished, its followers look in vain. -/
theorem look_of_running (h : c.Orderly) (hlead : c.find? lead = some { key, seat := .leader call })
    (hname : c.find? name = some { key, seat := .follower call }) :
    c.look name = (.pending, c) := by
  have hrunning := (h.running call).mpr ⟨lead, key, hlead⟩
  rw [look_of_follower hname]
  unfold SingleFlight.outcome? SingleFlight.progress
  rw [hrunning]
  rfl

theorem waiting_run (h : c.Orderly) (hlead : c.find? lead = some { key, seat := .leader call })
    (hname : c.find? name = some { key, seat := .follower call }) {acts : List (Act V)}
    (hacts : ∀ act ∈ acts, act.moves lead = false ∧ act.moves name = false) :
    (c.run acts).find? lead = some { key, seat := .leader call } ∧
      (c.run acts).find? name = some { key, seat := .follower call } := by
  induction acts generalizing c with
  | nil => exact ⟨hlead, hname⟩
  | cons act rest ih =>
    have hrest := fun other hin => hacts other (List.mem_cons_of_mem act hin)
    obtain ⟨hleader, hfollower⟩ := hacts act List.mem_cons_self
    have hkept : (c.step act).find? lead = c.find? lead ∧
        (c.step act).find? name = c.find? name := by
      cases act with
      | look other =>
        change (c.look other).2.find? lead = _ ∧ (c.look other).2.find? name = _
        by_cases hother : other = name
        · rw [hother, h.look_of_running hlead hname]
          exact ⟨rfl, rfl⟩
        · by_cases hother' : other = lead
          · rw [hother', look_of_leader hlead]
            exact ⟨rfl, rfl⟩
          · exact ⟨find?_look_of_ne (Ne.symm hother'), find?_look_of_ne (Ne.symm hother)⟩
      | _ =>
        simp only [Act.moves, beq_eq_false_iff_ne] at hleader hfollower
        exact ⟨find?_step_of_ne _ hleader, find?_step_of_ne _ hfollower⟩
    rw [← hkept.1] at hlead
    rw [← hkept.2] at hname
    exact ih (h.step act) hlead hname hrest

theorem look_of_published (hname : c.find? name = some { key, seat := .follower call })
    {result : Except CacheError V} (hcall : c.flight.calls[call]? = some (.published result)) :
    c.look name = (.done result, c.forget name) := by
  rw [look_of_follower hname]
  unfold SingleFlight.outcome? SingleFlight.progress
  rw [hcall]
  rfl

theorem look_of_abandoned (hname : c.find? name = some { key, seat := .follower call })
    (hcall : c.flight.calls[call]? = some .abandoned) :
    c.look name = (.done (.error (.loadAbandoned key)), c.forget name) := by
  rw [look_of_follower hname]
  unfold SingleFlight.outcome? SingleFlight.progress
  rw [hcall]
  rfl

theorem calls_settled_self (h : c.Orderly)
    (hlead : c.find? lead = some { key, seat := .leader call }) (p : Progress V) :
    (c.settled lead key call p).flight.calls[call]? = some p := by
  have hrunning := (h.running call).mpr ⟨lead, key, hlead⟩
  change (c.flight.calls.modify call fun _ => p)[call]? = some p
  rw [Array.getElem?_modify, if_pos rfl, hrunning]
  rfl

/-- A follower whose load has come to an end keeps its seat, and what came of the load is there for
it, whatever the others do meanwhile. -/
theorem settled_run (h : c.Orderly) (hlead : c.find? lead = some { key, seat := .leader call })
    (hname : c.find? name = some { key, seat := .follower call }) {p : Progress V}
    (hp : p ≠ .running) {later : List (Act V)} (hlater : ∀ act ∈ later, act.by ≠ name) :
    ((c.settled lead key call p).run later).find? name = some { key, seat := .follower call } ∧
      ((c.settled lead key call p).run later).flight.calls[call]? = some p := by
  have hne : name ≠ lead := by
    rintro rfl
    rw [hname] at hlead
    cases hlead
  apply (h.settled hlead hp).follower_run _ (h.calls_settled_self hlead p) hp hlater
  rw [find?_settled, if_neg hne, hname]

end Orderly

/-- A caller that waits for the load of a leader. It looks in vain until that load comes to an end;
whatever others do after that, it has not led, and receives what came of that load. -/
structure Follows (c : Callers V) (name lead key : String) : Prop where
  leads : c.Leads lead key
  waits : c.Waits name key
  pending : c.look name = (.pending, c)
  published : ∀ result later, (∀ act ∈ later, act.by ≠ name) →
    (c.finish lead result).1 = .done result ∧
    ((c.finish lead result).2.run later).Waits name key ∧
    (((c.finish lead result).2.run later).look name).1 = .done result
  abandoned : ∀ later, (∀ act ∈ later, act.by ≠ name) →
    ((c.cancel lead).2.run later).Waits name key ∧
    (((c.cancel lead).2.run later).look name).1 = .done (.error (.loadAbandoned key))

theorem Orderly.follows (h : c.Orderly) (hlead : c.find? lead = some { key, seat := .leader call })
    (hname : c.find? name = some { key, seat := .follower call }) : c.Follows name lead key where
  leads := ⟨call, hlead⟩
  waits := ⟨call, hname⟩
  pending := h.look_of_running hlead hname
  published result later hlater := by
    obtain ⟨hseat, hcall⟩ :=
      h.settled_run hlead hname (p := .published result) (by simp) hlater
    rw [finish_of_leader hlead]
    exact ⟨rfl, ⟨call, hseat⟩, by rw [look_of_published hseat hcall]⟩
  abandoned later hlater := by
    obtain ⟨hseat, hcall⟩ := h.settled_run hlead hname (p := .abandoned) (by simp) hlater
    rw [cancel_of_leader hlead]
    exact ⟨⟨call, hseat⟩, by rw [look_of_abandoned hseat hcall]⟩

theorem start_of_flight (h : c.find? name = none)
    (hkey : c.flight.inFlight.lookup key = some call) :
    (c.start name key).1 = false ∧
      (c.start name key).2.find? name = some { key, seat := .follower call } := by
  have henter : c.flight.enter key = (.follower call, c.flight) := by
    unfold SingleFlight.enter
    rw [hkey]
  rw [start_snd, cancel_of_none h, find?_seated, if_pos rfl, henter]
  refine ⟨?_, rfl⟩
  unfold start
  rw [cancel_of_none h]
  dsimp only
  rw [henter]

theorem start_of_vacant (h : c.find? name = none) (hkey : c.flight.inFlight.lookup key = none) :
    (c.start name key).1 = true := by
  have henter : c.flight.enter key = (.leader c.flight.calls.size,
      { calls := c.flight.calls.push .running
        inFlight := (key, c.flight.calls.size) :: c.flight.inFlight }) := by
    unfold SingleFlight.enter
    rw [hkey]
  unfold start
  rw [cancel_of_none h]
  dsimp only
  rw [henter]

/-- Whatever the order of the callers' steps is, a key has one load in flight at most, namely that
of its unfinished leader. A caller that starts meanwhile follows it, and receives what its leader
published, or that the load was abandoned. Once all callers are gone, the next one leads. -/
theorem loads_are_shared {acts : List (Act V)} {c : Callers V} (hrun : run {} acts = c) :
    (c.flight.inFlight.map (·.1)).Nodup ∧
    (∀ key, (c.flight.inFlight.lookup key).isSome ↔ ∃ name, c.Leads name key) ∧
    (∀ key name other, c.Leads name key → c.Leads other key → name = other) ∧
    (∀ call, c.flight.calls[call]? = some .running ↔
      ∃ name key, c.find? name = some { key, seat := .leader call }) ∧
    (∀ key lead name, c.Leads lead key → c.find? name = none →
      (c.start name key).1 = false ∧
      ∀ meanwhile, (∀ act ∈ meanwhile, act.moves lead = false ∧ act.moves name = false) →
        ((c.start name key).2.run meanwhile).Follows name lead key) ∧
    ((∀ name, c.find? name = none) →
      c.flight.inFlight = [] ∧ ∀ name key, (c.start name key).1 = true) := by
  have h : c.Orderly := by
    rw [← hrun]
    exact orderly_start.run acts
  refine ⟨h.keys, fun key => h.isSome_lookup_iff, fun key name other => h.leader_unique,
    h.running, ?_, ?_⟩
  · intro key lead name hleads hnone
    obtain ⟨call, hlead⟩ := hleads
    obtain ⟨hfollows, hname⟩ := start_of_flight hnone ((h.table key call).mpr ⟨lead, hlead⟩)
    refine ⟨hfollows, fun meanwhile hmeanwhile => ?_⟩
    have hstarted := h.start name key
    have hne : name ≠ lead := by
      rintro rfl
      rw [hnone] at hlead
      cases hlead
    have hlead' : (c.start name key).2.find? lead = some { key, seat := .leader call } := by
      rw [← hlead]
      exact find?_step_of_ne (.start name key) hne
    obtain ⟨hleading, hwaiting⟩ := hstarted.waiting_run hlead' hname hmeanwhile
    exact (hstarted.run meanwhile).follows hleading hwaiting
  · intro hnone
    have hempty := h.inFlight_eq_nil hnone
    refine ⟨hempty, fun name key => start_of_vacant (hnone name) ?_⟩
    rw [hempty]
    rfl

/-- `b` joins the load of `a` and looks only after `a` has published and `c` leads a new load. -/
theorem loads_are_shared_late :
    let waiting : Callers Nat := run {} [.start "a" "k", .start "b" "k"]
    let later : Callers Nat := (waiting.finish "a" (.ok 1)).2.run [.start "c" "k"]
    later.Leads "c" "k" ∧ (later.look "b").1 = .done (.ok 1) := by
  have hshared := loads_are_shared (rfl : run ({} : Callers Nat) [.start "a" "k"] = _)
  have hfollows := (hshared.2.2.2.2.1 "k" "a" "b" ⟨0, rfl⟩ rfl).2 [] (by simp)
  refine ⟨⟨1, rfl⟩, (hfollows.published (.ok 1) [.start "c" "k"] ?_).2.2⟩
  simp [Act.by]

end Callers

end TimedCache
