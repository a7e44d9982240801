import ImportAssist.Dialogue

/-!
# Transcripts of dialogues

A dialogue with one set of answers leaves a transcript: each request with its answer, in order.
`Dialogue.Plays` relates a dialogue to its transcripts and to what each of them ends in. Whatever is
proved of all transcripts holds however the requests are answered; `plays_of_run` says so for every
host that answers them, whatever it remembers.
-/

namespace ImportAssist

/-- A request and its answer. -/
inductive Exchange where
  | select (items : List String) (placeholder : String) (answer : Option String)
  | confirmReplace (identifier : String) (answer : Option Bool)
  | files (answer : List FileCandidate)
  | isCancelled (answer : Bool)

namespace Dialogue

/-- A dialogue, one of its transcripts, and what that ends in. -/
inductive Plays {α : Type} : Dialogue α → List Exchange → Except Failure α → Prop where
  | done (a : α) : Plays (.done a) [] (.ok a)
  | failed (failure : Failure) : Plays (.failed failure) [] (.error failure)
  | select {items placeholder next answer log result} :
      Plays (next answer) log result →
      Plays (.select items placeholder next) (.select items placeholder answer :: log) result
  | confirmReplace {identifier next answer log result} :
      Plays (next answer) log result →
      Plays (.confirmReplace identifier next) (.confirmReplace identifier answer :: log) result
  | files {next answer log result} :
      Plays (next answer) log result → Plays (.files next) (.files answer :: log) result
  | isCancelled {next answer log result} :
      Plays (next answer) log result → Plays (.isCancelled next) (.isCancelled answer :: log) result

variable {α β : Type} {log : List Exchange}

theorem plays_done {a : α} {result : Except Failure α} (h : (done a).Plays log result) :
    log = [] ∧ result = .ok a := by
  cases h
  exact ⟨rfl, rfl⟩

theorem plays_pure {a b : α} (h : (pure a : Dialogue α).Plays log (.ok b)) : log = [] ∧ b = a := by
  obtain ⟨hlog, hb⟩ := plays_done h
  exact ⟨hlog, Except.ok.inj hb⟩

theorem plays_ofExcept {e : Except Failure α} {a : α} (h : (ofExcept e).Plays log (.ok a)) :
    log = [] ∧ e = .ok a := by
  cases e with
  | ok b =>
      obtain ⟨hlog, hb⟩ := plays_done h
      exact ⟨hlog, hb.symm⟩
  | error failure => cases h

/-- A transcript of two dialogues one after the other is one of each. -/
theorem plays_bind {f : α → Dialogue β} {b : β} : ∀ {x : Dialogue α} {log : List Exchange},
    (x >>= f).Plays log (.ok b) →
      ∃ a front back, x.Plays front (.ok a) ∧ (f a).Plays back (.ok b) ∧ log = front ++ back
  | .done a, log, h => ⟨a, [], log, .done a, h, rfl⟩
  | .failed _, _, h => nomatch h
  | .select items placeholder next, _, .select h => by
      obtain ⟨a, front, back, hx, hf, rfl⟩ := plays_bind h
      exact ⟨a, _, back, .select hx, hf, rfl⟩
  | .confirmReplace identifier next, _, .confirmReplace h => by
      obtain ⟨a, front, back, hx, hf, rfl⟩ := plays_bind h
      exact ⟨a, _, back, .confirmReplace hx, hf, rfl⟩
  | .files next, _, .files h => by
      obtain ⟨a, front, back, hx, hf, rfl⟩ := plays_bind h
      exact ⟨a, _, back, .files hx, hf, rfl⟩
  | .isCancelled next, _, .isCancelled h => by
      obtain ⟨a, front, back, hx, hf, rfl⟩ := plays_bind h
      exact ⟨a, _, back, .isCancelled hx, hf, rfl⟩

/-- Transcripts of two dialogues make one of both. -/
theorem Plays.append {f : α → Dialogue β} {a : α} {b : β} {back : List Exchange}
    (hf : (f a).Plays back (.ok b)) : ∀ {x : Dialogue α} {front : List Exchange},
      x.Plays front (.ok a) → (x >>= f).Plays (front ++ back) (.ok b)
  | .done _, _, .done _ => hf
  | .select _ _ _, _, .select h => .select (hf.append h)
  | .confirmReplace _ _, _, .confirmReplace h => .confirmReplace (hf.append h)
  | .files _, _, .files h => .files (hf.append h)
  | .isCancelled _, _, .isCancelled h => .isCancelled (hf.append h)

theorem ofExcept_ok_bind {f : α → Dialogue β} (a : α) : (ofExcept (.ok a) >>= f) = f a := rfl

/-- A result that may be a failure is no request. -/
theorem plays_ofExcept_bind {e : Except Failure α} {f : α → Dialogue β} {b : β}
    (h : (ofExcept e >>= f).Plays log (.ok b)) : ∃ a, e = .ok a ∧ (f a).Plays log (.ok b) := by
  obtain ⟨a, front, back, hfront, hback, rfl⟩ := plays_bind h
  obtain ⟨rfl, rfl⟩ := plays_ofExcept hfront
  exact ⟨a, rfl, hback⟩

/-- What a dialogue ends in, if some exchanges are a transcript of it. -/
def replay : List Exchange → Dialogue α → Option α
  | [], .done a => some a
  | .select items placeholder answer :: log, .select items' placeholder' next =>
      if items = items' ∧ placeholder = placeholder' then replay log (next answer) else none
  | .confirmReplace identifier answer :: log, .confirmReplace identifier' next =>
      if identifier = identifier' then replay log (next answer) else none
  | .files answer :: log, .files next => replay log (next answer)
  | .isCancelled answer :: log, .isCancelled next => replay log (next answer)
  | _, _ => none

theorem plays_of_replay {x : Dialogue α} {a : α} (h : x.replay log = some a) :
    x.Plays log (.ok a) := by
  fun_induction replay log x with
  | case1 b =>
      cases h
      exact .done _
  | case2 items placeholder answer log items' placeholder' next heq ih =>
      obtain ⟨rfl, rfl⟩ := heq
      exact .select (ih h)
  | case4 answer log identifier next ih => exact .confirmReplace (ih h)
  | case6 answer log next ih => exact .files (ih h)
  | case7 answer log next ih => exact .isCancelled (ih h)
  | case3 => cases h
  | case5 => cases h
  | case8 => cases h

theorem replay_of_plays {a : α} : ∀ {x : Dialogue α} {log : List Exchange}, x.Plays log (.ok a) →
    x.replay log = some a
  | .done _, _, .done _ => rfl
  | .select _ _ _, _, .select h => by
      rw [replay, if_pos ⟨rfl, rfl⟩]
      exact replay_of_plays h
  | .confirmReplace _ _, _, .confirmReplace h => by
      rw [replay, if_pos rfl]
      exact replay_of_plays h
  | .files _, _, .files h => by
      rw [replay]
      exact replay_of_plays h
  | .isCancelled _, _, .isCancelled h => by
      rw [replay]
      exact replay_of_plays h

/-- A dialogue that has its failure for a result. -/
def attempt : Dialogue α → Dialogue (Except Failure α)
  | .done a => .done (.ok a)
  | .failed failure => .done (.error failure)
  | .select items placeholder next => .select items placeholder fun answer => (next answer).attempt
  | .confirmReplace identifier next => .confirmReplace identifier fun answer => (next answer).attempt
  | .files next => .files fun answer => (next answer).attempt
  | .isCancelled next => .isCancelled fun answer => (next answer).attempt

theorem plays_of_attempt {result : Except Failure α} : ∀ {x : Dialogue α} {log : List Exchange},
    x.attempt.Plays log (.ok result) → x.Plays log result
  | .done _, _, h => by
      obtain ⟨rfl, hresult⟩ := plays_done h
      cases hresult
      exact .done _
  | .failed _, _, h => by
      obtain ⟨rfl, hresult⟩ := plays_done h
      cases hresult
      exact .failed _
  | .select _ _ _, _, .select h => .select (plays_of_attempt h)
  | .confirmReplace _ _, _, .confirmReplace h => .confirmReplace (plays_of_attempt h)
  | .files _, _, .files h => .files (plays_of_attempt h)
  | .isCancelled _, _, .isCancelled h => .isCancelled (plays_of_attempt h)

/-- What a host plays is a transcript, whatever state `S` its answers depend on. -/
theorem plays_of_run {S : Type} (host : Host (StateT S (Except Failure))) :
    ∀ {x : Dialogue α} {before after : S} {a : α},
      (x.run host).run before = .ok (a, after) → ∃ log, x.Plays log (.ok a)
  | .done a, _, _, _, h => by
      cases h
      exact ⟨[], .done a⟩
  | .failed _, _, _, _, h => nomatch h
  | .select items placeholder next, before, after, a, h => by
      rw [Dialogue.run, StateT.run_bind] at h
      cases hans : (host.select items placeholder).run before with
      | error failure => rw [hans] at h; cases h
      | ok reply =>
          rw [hans] at h
          obtain ⟨log, hlog⟩ := plays_of_run host h
          exact ⟨_, .select hlog⟩
  | .confirmReplace identifier next, before, after, a, h => by
      rw [Dialogue.run, StateT.run_bind] at h
      cases hans : (host.confirmReplace identifier).run before with
      | error failure => rw [hans] at h; cases h
      | ok reply =>
          rw [hans] at h
          obtain ⟨log, hlog⟩ := plays_of_run host h
          exact ⟨_, .confirmReplace hlog⟩
  | .files next, before, after, a, h => by
      rw [Dialogue.run, StateT.run_bind] at h
      cases hans : host.files.run before with
      | error failure => rw [hans] at h; cases h
      | ok reply =>
          rw [hans] at h
          obtain ⟨log, hlog⟩ := plays_of_run host h
          exact ⟨_, .files hlog⟩
  | .isCancelled next, before, after, a, h => by
      rw [Dialogue.run, StateT.run_bind] at h
      cases hans : host.isCancelled.run before with
      | error failure => rw [hans] at h; cases h
      | ok reply =>
          rw [hans] at h
          obtain ⟨log, hlog⟩ := plays_of_run host h
          exact ⟨_, .isCancelled hlog⟩

/-- A result that a host without memory plays to. -/
theorem plays_of_result {host : Host (StateT Unit (Except Failure))} {x : Dialogue α} {a : α}
    (h : ((x.run host).run ()).toOption.map (·.1) = some a) : ∃ log, x.Plays log (.ok a) := by
  cases hrun : (x.run host).run () with
  | error failure => rw [hrun] at h; cases h
  | ok result =>
      rw [hrun] at h
      obtain rfl : result.1 = a := Option.some.inj h
      exact plays_of_run host hrun

end Dialogue

end ImportAssist
