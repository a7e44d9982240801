import ImportAssist.Proofs.Splice
import ImportAssist.Recency
import Mathlib.Data.List.Induction

/-!
# Histories as last uses

A history forgets what falls off its end, and is stored and read back between uses. Nothing of this shows:
`recent_eq_lastUses` says that after any uses and restarts the history of a language is what the limit leaves
of `lastUses`, the list of all ids that were ever used, each once, the one used last in front.

A use moves its id to the front of the list of last uses (`lastUses_concat`). A history does the same to what it
has kept, and what it has forgotten makes no difference in front of the limit (`take_cons_erase_take`). `Follows` is
the invariant of a run; its steps are `Follows.used` and `Follows.restarted`, and `Follows.after` is the
induction over the events.
-/

namespace ImportAssist

/-! ## Ids by their last use -/

section LastUses

variable {ι : Type} [DecidableEq ι]

/-- Each of some ids once, in the order of their last occurrences, the latest in front. -/
def lastUses (ids : List ι) : List ι := ids.reverse.eraseDups

/-- Taking out repeats goes on with what differs from the first id. -/
theorem eraseDups_induction {motive : List ι → Prop} (nil : motive [])
    (cons : ∀ a rest, motive (rest.filter fun b => !b == a) → motive (a :: rest)) : ∀ ids, motive ids
  | [] => nil
  | a :: rest => cons a rest (eraseDups_induction nil cons (rest.filter fun b => !b == a))
termination_by ids => ids.length
decreasing_by exact Nat.lt_succ_of_le (List.length_filter_le _ _)

theorem filter_eraseDups (p : ι → Bool) (ids : List ι) :
    (ids.filter p).eraseDups = ids.eraseDups.filter p := by
  induction ids using eraseDups_induction with
  | nil => rfl
  | cons a rest ih =>
      rw [List.eraseDups_cons, List.filter_cons, List.filter_cons, ← ih, List.filter_filter]
      split
      case isTrue =>
        rw [List.eraseDups_cons, List.filter_filter]
        simp only [Bool.and_comm]
      case isFalse hp =>
        -- `p` does not hold of `a`, so that taking `a` out makes no difference.
        congr 1
        refine List.filter_congr fun b _ => ?_
        by_cases hb : b = a
        · subst hb
          simp [hp]
        · simp [hb]

theorem nodup_eraseDups (ids : List ι) : ids.eraseDups.Nodup := by
  induction ids using eraseDups_induction with
  | nil => exact .nil
  | cons a rest ih =>
      rw [List.eraseDups_cons, List.nodup_cons]
      refine ⟨fun ha => ?_, ih⟩
      simp [List.mem_eraseDups] at ha

theorem nodup_lastUses (ids : List ι) : (lastUses ids).Nodup := nodup_eraseDups _

/-- A use brings its id to the front. -/
theorem lastUses_concat (ids : List ι) (id : ι) :
    lastUses (ids ++ [id]) = id :: (lastUses ids).erase id := by
  rw [lastUses, List.reverse_append, List.reverse_singleton, List.singleton_append, List.eraseDups_cons,
    filter_eraseDups, (nodup_lastUses ids).erase_eq_filter]
  rfl

example : lastUses ["a", "b", "a", "c", "a"] = ["a", "c", "b"] := by decide

/-! ## Moving to the front of what is left -/

theorem take_erase_take (id : ι) : ∀ (n : Nat) (ids : List ι),
    ((ids.take (n + 1)).erase id).take n = (ids.erase id).take n
  | _, [] => by simp
  | n, a :: rest => by
      rw [List.take_succ_cons, List.erase_cons, List.erase_cons]
      split
      · rw [List.take_take, Nat.min_self]
      · cases n with
        | zero => rfl
        | succ n => rw [List.take_succ_cons, List.take_succ_cons, take_erase_take id n rest]

/-- Moving an id to the front of what the limit has left gives what the limit leaves of the whole list with the id
moved to its front. -/
theorem take_cons_erase_take (id : ι) (n : Nat) (ids : List ι) :
    (id :: (ids.take n).erase id).take n = (id :: ids.erase id).take n := by
  cases n with
  | zero => rfl
  | succ n => rw [List.take_succ_cons, List.take_succ_cons, take_erase_take]

end LastUses

/-! ## One history -/

@[simp] theorem sliceTo_natCast {α : Type} (list : List α) (n : Nat) : sliceTo list (n : Int) = list.take n := by
  rw [sliceTo, slicePosition_natCast, ← List.take_eq_take_min]

namespace Recency

section Histories

variable {ι : Type} {r : Recency ι} {language other : String} {history : List ι}
  {histories : List (String × List ι)}

theorem find?_setHistory (language other : String) (history : List ι) :
    ∀ histories : List (String × List ι), (setHistory language history histories).find? (·.1 == other) =
      if other = language then some (language, history) else histories.find? (·.1 == other)
  | [] => by
      rw [setHistory, List.find?_singleton]
      by_cases ho : other = language
      · simp [ho]
      · simp [ho, Ne.symm ho]
  | (l, h) :: rest => by
      have ih := find?_setHistory language other history rest
      rw [setHistory]
      split
      case isTrue hl =>
        subst hl
        by_cases hother : l = other
        · simp [hother]
        · simp [hother, Ne.symm hother]
      case isFalse hl =>
        rw [List.find?_cons, List.find?_cons, ih]
        by_cases hlo : l = other
        · subst hlo
          simp [hl]
        · simp only [beq_eq_false_iff_ne.mpr hlo]

/-- The languages that have a history keep their order; a new one comes last. -/
theorem keys_setHistory (language : String) (history : List ι) :
    ∀ histories : List (String × List ι), (setHistory language history histories).map (·.1) =
      if language ∈ histories.map (·.1) then histories.map (·.1) else histories.map (·.1) ++ [language]
  | [] => rfl
  | (l, h) :: rest => by
      rw [setHistory]
      split
      case isTrue hl => simp [hl]
      case isFalse hl =>
        rw [List.map_cons, keys_setHistory language history rest]
        simp only [List.map_cons, List.mem_cons, Ne.symm hl, false_or]
        split <;> rfl

theorem nodup_keys_setHistory (h : (histories.map (·.1)).Nodup) :
    ((setHistory language history histories).map (·.1)).Nodup := by
  rw [keys_setHistory]
  split
  case isTrue => exact h
  case isFalse hnew =>
    refine List.nodup_append.mpr ⟨h, by simp, fun a ha b hb => ?_⟩
    rw [List.mem_singleton] at hb
    exact fun hab => hnew (hb ▸ hab ▸ ha)

@[simp] theorem limit_set : (r.set language history).limit = r.limit := rfl

theorem recent_set (r : Recency ι) (language other : String) (history : List ι) :
    (r.set language history).recent other =
      if other = language then sliceTo history r.limit else r.recent other := by
  rw [recent, set, find?_setHistory]
  split <;> rfl

@[simp] theorem recent_set_self : (r.set language history).recent language = sliceTo history r.limit := by
  rw [recent_set, if_pos rfl]

theorem recent_set_of_ne (h : other ≠ language) : (r.set language history).recent other = r.recent other := by
  rw [recent_set, if_neg h]

theorem recent_empty (limit : Int) (language : String) : (empty limit : Recency ι).recent language = [] := rfl

/-- Of several languages with a history each one is found. -/
theorem find?_of_mem {e : String × List ι} (hkeys : (histories.map (·.1)).Nodup) (he : e ∈ histories) :
    histories.find? (·.1 == e.1) = some e := by
  obtain ⟨front, rest, rfl⟩ := List.append_of_mem he
  refine List.find?_eq_some_iff_append.mpr ⟨beq_self_eq_true e.1, front, rest, rfl, ?_⟩
  intro a ha
  rw [List.map_append, List.map_cons] at hkeys
  have hne := (List.nodup_append.mp hkeys).2.2 a.1 (List.mem_map_of_mem ha) e.1 List.mem_cons_self
  simpa using hne

end Histories

/-! ## Reading back what was stored -/

theorem loadHistories_arrays : ∀ (stored : List (String × List Json)) (r : Recency Json),
    r.loadHistories (stored.map fun (l, h) => (l, .arr h)) =
      (.ok (), stored.foldl (fun r (l, h) => r.set l h) r)
  | [], _ => rfl
  | (l, h) :: rest, r => loadHistories_arrays rest (r.set l h)

/-- Histories of different languages that are taken over: each is cut to the limit, and the others stay. -/
theorem recent_foldl_set {ι : Type} : ∀ (stored : List (String × List ι)) (r : Recency ι),
    (stored.map (·.1)).Nodup → ∀ language,
      (stored.foldl (fun r (l, h) => r.set l h) r).recent language =
        match stored.find? (·.1 == language) with
        | some e => sliceTo e.2 r.limit
        | none => r.recent language
  | [], _, _, _ => rfl
  | (l, h) :: rest, r, hkeys, language => by
      rw [List.map_cons, List.nodup_cons] at hkeys
      rw [List.foldl_cons, recent_foldl_set rest _ hkeys.2, List.find?_cons]
      by_cases hl : l = language
      · subst hl
        have hrest : rest.find? (·.1 == l) = none := by
          refine List.find?_eq_none.mpr fun e he hle => hkeys.1 ?_
          exact (beq_iff_eq.mp hle) ▸ List.mem_map_of_mem (f := (·.1)) he
        rw [hrest]
        simp
      · have hne : language ≠ l := Ne.symm hl
        simp only [beq_eq_false_iff_ne.mpr hl, limit_set, recent_set_of_ne hne]

theorem nodup_keys_foldl_set {ι : Type} : ∀ (stored : List (String × List ι)) (r : Recency ι),
    (r.histories.map (·.1)).Nodup →
      ((stored.foldl (fun r (l, h) => r.set l h) r).histories.map (·.1)).Nodup
  | [], _, hkeys => hkeys
  | _ :: rest, _, hkeys => nodup_keys_foldl_set rest _ (nodup_keys_setHistory hkeys)

theorem limit_foldl_set {ι : Type} : ∀ (stored : List (String × List ι)) (r : Recency ι),
    (stored.foldl (fun r (l, h) => r.set l h) r).limit = r.limit
  | [], _ => rfl
  | (l, h) :: rest, r => limit_foldl_set rest (r.set l h)

/-- A fresh record of the same limit that takes over what this one stores. -/
def restart (r : Recency Json) : Recency Json := ((empty r.limit).load r.toJson).2

theorem load_toJson (r s : Recency Json) :
    s.load r.toJson = (.ok (), r.histories.foldl (fun r (l, h) => r.set l h) s) :=
  loadHistories_arrays r.histories s

theorem restart_eq (r : Recency Json) :
    r.restart = r.histories.foldl (fun r (l, h) => r.set l h) (empty r.limit) := by
  rw [restart, load_toJson]

/-- After a restart each history is what the limit leaves of it. -/
theorem recent_restart {r : Recency Json} (hkeys : (r.histories.map (·.1)).Nodup) (language : String) :
    r.restart.recent language = sliceTo (r.recent language) r.limit := by
  rw [restart_eq, recent_foldl_set _ _ hkeys, recent, recent]
  cases r.histories.find? (·.1 == language) with
  | none => simp [empty, sliceTo]
  | some e => rfl

end Recency

/-! ## Runs -/

theorem erase_map_str (ids : List String) (id : String) :
    (ids.map Json.str).erase (.str id) = (ids.erase id).map .str := by
  induction ids with
  | nil => rfl
  | cons a rest ih =>
      have hbeq : (Json.str a == .str id) = (a == id) := rfl
      rw [List.map_cons, List.erase_cons, List.erase_cons, hbeq, ih]
      split <;> rfl

/-- What befalls the histories. -/
inductive HistoryEvent where
  | used (language id : String)
  | restarted

/-- The ids that are used in a language, in order. -/
def usesOf (language : String) (events : List HistoryEvent) : List String :=
  events.filterMap fun
    | .used l id => if l = language then some id else none
    | .restarted => none

namespace Recency

/-- The histories after an event. -/
def after (r : Recency Json) : HistoryEvent → Recency Json
  | .used language id => r.mark language (.str id)
  | .restarted => r.restart

/-- A record with a limit has what the limit leaves of the last uses of some events. -/
structure Follows (n : Nat) (events : List HistoryEvent) (r : Recency Json) : Prop where
  limit : r.limit = n
  keys : (r.histories.map (·.1)).Nodup
  recent : ∀ language, r.recent language = ((lastUses (usesOf language events)).take n).map .str

namespace Follows

variable {n : Nat} {events : List HistoryEvent} {r : Recency Json}

theorem empty (n : Nat) : Follows n [] (.empty n) := ⟨rfl, .nil, fun _ => by simp [usesOf, lastUses, recent_empty]⟩

theorem used (h : Follows n events r) (language id : String) :
    Follows n (events ++ [.used language id]) (r.mark language (.str id)) where
  limit := h.limit
  keys := nodup_keys_setHistory h.keys
  recent other := by
    have huses : usesOf other (events ++ [.used language id]) =
        usesOf other events ++ if language = other then [id] else [] := by
      rw [usesOf, List.filterMap_append]
      split <;> simp [usesOf, *]
    rw [huses, mark, recent_set, h.limit, sliceTo_natCast]
    by_cases ho : language = other
    · subst ho
      rw [if_pos rfl, if_pos rfl, h.recent, erase_map_str, ← List.map_cons, ← List.map_take,
        take_cons_erase_take, lastUses_concat]
    · rw [if_neg (Ne.symm ho), if_neg ho, List.append_nil, h.recent]

theorem restarted (h : Follows n events r) : Follows n (events ++ [.restarted]) r.restart where
  limit := by rw [restart_eq, limit_foldl_set]; exact h.limit
  keys := by rw [restart_eq]; exact nodup_keys_foldl_set _ _ .nil
  recent language := by
    have huses : usesOf language (events ++ [.restarted]) = usesOf language events := by simp [usesOf]
    -- The history is already within the limit, so reading it back cuts nothing off.
    rw [recent_restart h.keys, h.limit, sliceTo_natCast, h.recent, huses, ← List.map_take, List.take_take,
      Nat.min_self]

theorem after (n : Nat) (events : List HistoryEvent) : Follows n events (events.foldl Recency.after (.empty n)) := by
  induction events using List.reverseRecOn with
  | nil => exact .empty n
  | append_singleton events event ih =>
      rw [List.foldl_append, List.foldl_cons, List.foldl_nil]
      cases event with
      | used language id => exact ih.used language id
      | restarted => exact ih.restarted

end Follows

end Recency

/-- After any uses and restarts each language has what the limit leaves of its last uses; what was stored can then
be read back, and a use in one language leaves the other histories as they are. -/
theorem recent_eq_lastUses (n : Nat) (events : List HistoryEvent) :
    let r := events.foldl Recency.after (.empty n)
    (∀ language, r.recent language = ((lastUses (usesOf language events)).take n).map .str) ∧
      ((Recency.empty r.limit).load r.toJson).1 = .ok () ∧
      ∀ language other id, other ≠ language → (r.mark language (.str id)).recent other = r.recent other := by
  intro r
  refine ⟨(Recency.Follows.after n events).recent, ?_, fun language other id hne => ?_⟩
  · rw [Recency.load_toJson]
  · exact Recency.recent_set_of_ne hne

end ImportAssist
