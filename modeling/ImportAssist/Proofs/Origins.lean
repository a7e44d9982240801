import ImportAssist.Proofs.Layout

/-!
# Where the nodes of a tree come from

Every node that a rule gives is a comment or was made by some part of the rule (`Rule.run_makes`).
`Makes` says which part that may be, and for a node with children also how these were read.

So where a node comes from can be read off the rule. `Rule.makers` lists the parts that may make a
node with some label, and `Rule.givers` those that give it some role. Neither looks behind a symbol,
so each has to be empty for the symbols that a rule refers to.
-/

namespace ImportAssist

open Syntax

variable {σ : Type}

/-! ## Making nodes -/

/-- A part of the rule makes the node, at a cursor that satisfies `ok`. -/
inductive Makes (grammar : σ → Rule σ) (endsLine : Char → Bool) (ok : Cursor → Prop) :
    Rule σ → Node → Prop
  | mark {text : String} {notBefore : List Char} (start stop : Nat) :
      Makes grammar endsLine ok (.mark text notBefore) (.token text start stop)
  | keyword {text : String} (start stop : Nat) :
      Makes grammar endsLine ok (.keyword text) (.token text start stop)
  | name {kind : Kind} {except : List String} {c : Cursor} {n : Nat} :
      ok c → c.rest ≠ [] → 0 < n →
      Makes grammar endsLine ok (.name kind except) (.leaf kind c.offset (c.advance n).offset)
  | lexeme {kind : Kind} {raw : Bool} {literal : Lexeme.Class} {c : Cursor} {n : Nat} :
      ok c → literal.scan c.rest = some n →
      Makes grammar endsLine ok (.lexeme kind raw literal)
        (.leaf kind c.offset (c.advance n).offset)
  | seq {rules : List (Rule σ)} {rule : Rule σ} {n : Node} :
      rule ∈ rules → Makes grammar endsLine ok rule n → Makes grammar endsLine ok (.seq rules) n
  | alt {rules : List (Rule σ)} {rule : Rule σ} {n : Node} :
      rule ∈ rules → Makes grammar endsLine ok rule n → Makes grammar endsLine ok (.alt rules) n
  | opt {rule : Rule σ} {n : Node} :
      Makes grammar endsLine ok rule n → Makes grammar endsLine ok (.opt rule) n
  | many {rule : Rule σ} {n : Node} :
      Makes grammar endsLine ok rule n → Makes grammar endsLine ok (.many rule) n
  | node {kind : Kind} {rule : Rule σ} {fuel : Nat} {place : Place} {c : Cursor} {r : Reading} :
      ok c → rule.run grammar endsLine fuel place c = some r →
      Makes grammar endsLine ok (.node kind rule)
        (.mk (.kind kind) none c.offset r.2.offset r.1)
  | given {part : Role} {rule : Rule σ} {n : Node} :
      Makes grammar endsLine ok rule n → Makes grammar endsLine ok (.role part rule) (n.withRole part)
  | other {part : Role} {rule : Rule σ} {n : Node} :
      Makes grammar endsLine ok rule n → Makes grammar endsLine ok (.role part rule) n
  | call {symbol : σ} {n : Node} :
      Makes grammar endsLine ok (grammar symbol) n → Makes grammar endsLine ok (.call symbol) n
  | base {base : Rule σ} {links : List (Link σ)} {n : Node} :
      Makes grammar endsLine ok base n → Makes grammar endsLine ok (.chain base links) n
  | link {base tail : Rule σ} {links : List (Link σ)} {kind : Kind} {left : Option Role}
      {onto : List Kind} (start stop : Nat) (ns : List Node) :
      .mk kind left onto tail ∈ links →
      Makes grammar endsLine ok (.chain base links) (.mk (.kind kind) none start stop ns)
  | fresh {rule : Rule σ} {n : Node} :
      Makes grammar endsLine ok rule n → Makes grammar endsLine ok (.fresh rule) n
  | inside {place : Place} {rule : Rule σ} {n : Node} :
      Makes grammar endsLine ok rule n → Makes grammar endsLine ok (.inside place rule) n

/-- A comment. -/
def Node.IsComment (n : Node) : Prop := ∃ start stop, n = .leaf .comment start stop

/-- A comment, or a node that the rule makes. -/
def Gives (grammar : σ → Rule σ) (endsLine : Char → Bool) (ok : Cursor → Prop) (rule : Rule σ)
    (ns : List Node) : Prop :=
  ∀ n ∈ ns, n.IsComment ∨ Makes grammar endsLine ok rule n

section

variable {grammar : σ → Rule σ} {endsLine : Char → Bool} {ok : Cursor → Prop} {rule : Rule σ}
  {ns ms : List Node}

theorem Gives.nil : Gives grammar endsLine ok rule [] := nofun

theorem Gives.append (h : Gives grammar endsLine ok rule ns) (h' : Gives grammar endsLine ok rule ms) :
    Gives grammar endsLine ok rule (ns ++ ms) := by
  intro n hn
  rcases List.mem_append.mp hn with hn | hn
  · exact h n hn
  · exact h' n hn

theorem Gives.imp {rule' : Rule σ} (h : Gives grammar endsLine ok rule ns)
    (himp : ∀ n, Makes grammar endsLine ok rule n → Makes grammar endsLine ok rule' n) :
    Gives grammar endsLine ok rule' ns :=
  fun n hn => (h n hn).imp_right (himp n)

theorem Gives.single {n : Node} (h : Makes grammar endsLine ok rule n) :
    Gives grammar endsLine ok rule [n] := by
  intro m hm
  rw [List.mem_singleton.mp hm]
  exact .inr h

theorem trivia_comments : ∀ (fuel : Nat) (c : Cursor), ∀ n ∈ (trivia fuel c).1, n.IsComment
  | 0, _ => List.forall_mem_nil _
  | fuel + 1, c => by
      rw [trivia]
      split
      · exact List.forall_mem_nil _
      · split
        · exact trivia_comments fuel _
        · split
          · intro n hn
            rcases List.mem_cons.mp hn with rfl | hn
            · exact ⟨_, _, rfl⟩
            · exact trivia_comments fuel _ n hn
          · exact List.forall_mem_nil _

theorem gives_trivia (fuel : Nat) (c : Cursor) : Gives grammar endsLine ok rule (trivia fuel c).1 :=
  fun n hn => .inl (trivia_comments fuel c n hn)

theorem lineEnd_comments (endsLine : Char → Bool) : ∀ (fuel : Nat) {c : Cursor} {r : Reading},
    lineEnd endsLine fuel c = some r → ∀ n ∈ r.1, n.IsComment
  | 0, _, _, h => by simp [lineEnd] at h
  | fuel + 1, c, r, h => by
      rw [lineEnd] at h
      split at h
      · cases h
        exact List.forall_mem_nil _
      · split at h
        · cases h
          exact List.forall_mem_nil _
        · split at h
          · split at h
            · cases h
              exact List.forall_mem_nil _
            · cases h
          · split at h
            · obtain ⟨more, hmore, rfl⟩ := Option.map_eq_some_iff.mp h
              intro n hn
              rcases List.mem_cons.mp hn with rfl | hn
              · exact ⟨_, _, rfl⟩
              · exact lineEnd_comments endsLine fuel hmore n hn
            · cases h

/-- A role goes to one of the nodes that are there. -/
theorem mem_assignRole {part : Role} {n : Node} : ∀ {ns : List Node},
    n ∈ assignRole part ns → n ∈ ns ∨ ∃ m ∈ ns, ¬m.IsComment ∧ n = m.withRole part
  | [], h => .inl h
  | m :: ns, h => by
      rw [assignRole] at h
      split at h
      · split at h
        · exact .inl h
        · rename_i hkind
          rcases List.mem_cons.mp h with rfl | h
          · refine .inr ⟨m, List.mem_cons_self .., ?_, rfl⟩
            rintro ⟨start, stop, rfl⟩
            exact hkind rfl
          · exact .inl (List.mem_cons_of_mem _ h)
      · rcases List.mem_cons.mp h with rfl | h
        · exact .inl (List.mem_cons_self ..)
        · rcases mem_assignRole h with h | ⟨k, hk, hrest⟩
          · exact .inl (List.mem_cons_of_mem _ h)
          · exact .inr ⟨k, List.mem_cons_of_mem _ hk, hrest⟩

theorem Gives.role {part : Role} (h : Gives grammar endsLine ok rule ns) :
    Gives grammar endsLine ok (.role part rule) (assignRole part ns) := by
  intro n hn
  rcases mem_assignRole hn with hn | ⟨m, hm, hcomment, rfl⟩
  · exact (h n hn).imp_right .other
  · exact .inr (.given ((h m hm).resolve_left hcomment))

end

/-! ## Readers made of readers -/

section

variable {grammar : σ → Rule σ} {endsLine : Char → Bool} {ok : Cursor → Prop}
  {run : Rule σ → Cursor → Option Reading}

/-- A reader for rules that stays where `ok` holds and gives what its rules make. -/
def Traces (grammar : σ → Rule σ) (endsLine : Char → Bool) (ok : Cursor → Prop)
    (run : Rule σ → Cursor → Option Reading) : Prop :=
  ∀ (rule : Rule σ) (c : Cursor) (r : Reading), ok c → run rule c = some r →
    ok r.2 ∧ Gives grammar endsLine ok rule r.1

theorem runSeq_gives (hrun : Traces grammar endsLine ok run) (whole : List (Rule σ)) :
    ∀ {rules : List (Rule σ)} {c : Cursor} {r : Reading}, (∀ rule ∈ rules, rule ∈ whole) → ok c →
      runSeq run rules c = some r → ok r.2 ∧ Gives grammar endsLine ok (.seq whole) r.1
  | [], c, r, _, hc, h => by
      cases h
      exact ⟨hc, .nil⟩
  | rule :: rules, c, r, hmem, hc, h => by
      rw [runSeq] at h
      split at h
      · cases h
      · rename_i ns after hrule
        obtain ⟨hafter, hgives⟩ := hrun _ _ _ hc hrule
        split at h
        · cases h
        · rename_i ms last hrules
          cases h
          obtain ⟨hlast, hmore⟩ := runSeq_gives hrun whole
            (fun other hother => hmem other (List.mem_cons_of_mem _ hother)) hafter hrules
          exact ⟨hlast, (hgives.imp fun _ => .seq (hmem rule (List.mem_cons_self ..))).append hmore⟩

theorem runAlt_gives (hrun : Traces grammar endsLine ok run) (whole : List (Rule σ)) {c : Cursor}
    (hc : ok c) : ∀ {rules : List (Rule σ)} {r : Reading}, (∀ rule ∈ rules, rule ∈ whole) →
      runAlt run rules c = some r → ok r.2 ∧ Gives grammar endsLine ok (.alt whole) r.1
  | [], _, _, h => by cases h
  | rule :: rules, r, hmem, h => by
      rw [runAlt] at h
      split at h
      · rename_i reading hrule
        cases h
        obtain ⟨hafter, hgives⟩ := hrun _ _ _ hc hrule
        exact ⟨hafter, hgives.imp fun _ => .alt (hmem rule (List.mem_cons_self ..))⟩
      · exact runAlt_gives hrun whole hc
          (fun other hother => hmem other (List.mem_cons_of_mem _ hother)) h

theorem repeatRun_gives {rule : Rule σ} {read : Cursor → Option Reading}
    (hread : ∀ c r, ok c → read c = some r → ok r.2 ∧ Gives grammar endsLine ok rule r.1) :
    ∀ (fuel : Nat) {done : List (List Node)} {c : Cursor}, ok c →
      Gives grammar endsLine ok rule done.reverse.flatten →
      ok (repeatRun read fuel done c).2 ∧
        Gives grammar endsLine ok rule (repeatRun read fuel done c).1
  | 0, _, _, hc, hdone => ⟨hc, hdone⟩
  | fuel + 1, done, c, hc, hdone => by
      rw [repeatRun]
      split
      · exact ⟨hc, hdone⟩
      · rename_i ns after hns
        split
        · exact ⟨hc, hdone⟩
        · obtain ⟨hafter, hgives⟩ := hread _ _ hc hns
          refine repeatRun_gives hread fuel hafter ?_
          simpa using hdone.append hgives

theorem runLinks_gives (hrun : Traces grammar endsLine ok run) {base : Rule σ}
    (whole : List (Link σ)) {left : Node} {c : Cursor} (hc : ok c) :
    ∀ {links : List (Link σ)} {node : Node} {after : Cursor}, (∀ link ∈ links, link ∈ whole) →
      runLinks run left links c = some (node, after) →
      ok after ∧ Gives grammar endsLine ok (.chain base whole) [node]
  | [], _, _, _, h => by cases h
  | .mk kind role onto tail :: links, node, after, hmem, h => by
      have hmore : ∀ link ∈ links, link ∈ whole := fun link hlink =>
        hmem link (List.mem_cons_of_mem _ hlink)
      unfold runLinks at h
      split at h
      · split at h
        · rename_i ns last htail
          cases h
          exact ⟨(hrun _ _ _ hc htail).1, .single (.link _ _ _ (hmem _ (List.mem_cons_self ..)))⟩
        · exact runLinks_gives hrun whole hc hmore h
      · exact runLinks_gives hrun whole hc hmore h

/-- An operand stays as it is or ends up in a node of one of the links. -/
theorem runChain_gives (hrun : Traces grammar endsLine ok run) {base : Rule σ}
    (links : List (Link σ)) : ∀ (fuel : Nat) {left : Node} {c : Cursor}, ok c →
      Gives grammar endsLine ok (.chain base links) [left] →
      ok (runChain run links fuel left c).2 ∧
        Gives grammar endsLine ok (.chain base links) [(runChain run links fuel left c).1]
  | 0, _, _, hc, hleft => ⟨hc, hleft⟩
  | fuel + 1, left, c, hc, hleft => by
      rw [runChain]
      split
      · exact ⟨hc, hleft⟩
      · rename_i node after hlink
        obtain ⟨hafter, hnode⟩ := runLinks_gives hrun links hc (fun _ h => h) hlink
        exact runChain_gives hrun links fuel hafter hnode

end

/-- Every node that a rule gives is a comment or was made by a part of the rule. -/
theorem Rule.run_makes {grammar : σ → Rule σ} {endsLine : Char → Bool} {ok : Cursor → Prop}
    (hok : ∀ c n, ok c → ok (c.advance n)) :
    ∀ (fuel : Nat) (place : Place),
      Traces grammar endsLine ok (Rule.run grammar endsLine fuel place)
  | 0, _, _, _, _, _, h => by simp [Rule.run] at h
  | fuel + 1, place, rule, c, r, hc, h => by
      have ih : ∀ place, Traces grammar endsLine ok (Rule.run grammar endsLine fuel place) :=
        Rule.run_makes hok fuel
      have hskip : ok (trivia fuel c).2 := by
        obtain ⟨n, hn⟩ := trivia_forward fuel c
        rw [hn]
        exact hok c n hc
      cases rule with
      | mark text notBefore =>
          simp only [Rule.run] at h
          split at h
          · cases h
            exact ⟨hok _ _ hskip, (gives_trivia fuel c).append (.single (.mark _ _))⟩
          · cases h
      | keyword text =>
          simp only [Rule.run] at h
          split at h
          · cases h
            exact ⟨hok _ _ hskip, (gives_trivia fuel c).append (.single (.keyword _ _))⟩
          · cases h
      | name kind except =>
          simp only [Rule.run] at h
          split at h
          · cases h
          · rename_i hword
            cases h
            rw [Bool.or_eq_true, not_or] at hword
            have hpos : Lexeme.word (trivia fuel c).2.rest ≠ 0 := by simpa using hword.1
            have hrest : (trivia fuel c).2.rest ≠ [] := fun hnil => by simp [hnil, Lexeme.word] at hpos
            exact ⟨hok _ _ hskip, (gives_trivia fuel c).append
              (.single (.name hskip hrest (Nat.pos_of_ne_zero hpos)))⟩
      | lexeme kind raw literal =>
          simp only [Rule.run] at h
          obtain ⟨n, hscan, rfl⟩ := Option.map_eq_some_iff.mp h
          cases raw with
          | true => exact ⟨hok _ _ hc, .single (.lexeme hc hscan)⟩
          | false =>
              exact ⟨hok _ _ hskip, (gives_trivia fuel c).append (.single (.lexeme hskip hscan))⟩
      | seq rules => exact runSeq_gives (ih place) rules (fun _ h => h) hc h
      | alt rules => exact runAlt_gives (ih place) rules hc (fun _ h => h) h
      | opt rule =>
          simp only [Rule.run] at h
          split at h
          · rename_i reading hrule
            cases h
            exact (ih place _ _ _ hc hrule).imp_right fun hgives => hgives.imp fun _ => .opt
          · cases h
            exact ⟨hc, .nil⟩
      | many rule =>
          simp only [Rule.run] at h
          cases h
          exact (repeatRun_gives (ih place rule) fuel hc .nil).imp_right
            fun hgives => hgives.imp fun _ => .many
      | ahead rule =>
          simp only [Rule.run] at h
          obtain ⟨_, -, rfl⟩ := Option.map_eq_some_iff.mp h
          exact ⟨hc, .nil⟩
      | notAhead rule =>
          simp only [Rule.run] at h
          split at h
          · cases h
          · cases h
            exact ⟨hc, .nil⟩
      | node kind rule =>
          simp only [Rule.run] at h
          obtain ⟨inner, hinner, rfl⟩ := Option.map_eq_some_iff.mp h
          exact ⟨(ih place _ _ _ hskip hinner).1,
            (gives_trivia fuel c).append (.single (.node hskip hinner))⟩
      | role part rule =>
          simp only [Rule.run] at h
          obtain ⟨inner, hinner, rfl⟩ := Option.map_eq_some_iff.mp h
          exact (ih place _ _ _ hc hinner).imp_right Gives.role
      | call symbol =>
          simp only [Rule.run] at h
          exact (ih place _ _ _ hc h).imp_right fun hgives => hgives.imp fun _ => .call
      | chain base links =>
          simp only [Rule.run] at h
          split at h
          · cases h
          · rename_i ns after hbase
            obtain ⟨hafter, hgives⟩ := ih place _ _ _ hc hbase
            have hns : Gives grammar endsLine ok (.chain base links) ns := hgives.imp fun _ => .base
            split at h
            · cases h
              exact ⟨hafter, hns⟩
            · rename_i left hlast
              cases h
              have hleft : Gives grammar endsLine ok (.chain base links) [left] :=
                fun n hn => hns n (List.mem_singleton.mp hn ▸ List.mem_of_getLast? hlast)
              obtain ⟨hafter', hwhole⟩ := runChain_gives (ih place) links fuel hafter hleft
              exact ⟨hafter', Gives.append (fun n hn => hns n ((List.dropLast_sublist ns).mem hn)) hwhole⟩
      | fresh rule =>
          simp only [Rule.run] at h
          obtain ⟨inner, hinner, rfl⟩ := Option.map_eq_some_iff.mp h
          obtain ⟨hafter, hgives⟩ := ih place _ _ _ hskip hinner
          exact ⟨hafter, (gives_trivia fuel c).append (hgives.imp fun _ => .fresh)⟩
      | inside inner rule =>
          simp only [Rule.run] at h
          exact (ih inner _ _ _ hc h).imp_right fun hgives => hgives.imp fun _ => .inside
      | outside other =>
          simp only [Rule.run] at h
          split at h
          · cases h
          · cases h
            exact ⟨hc, .nil⟩
      | semicolon =>
          have hcomments := lineEnd_comments endsLine fuel h
          obtain ⟨⟨n, hn⟩, -⟩ :=
            (lineEnd_reads endsLine fuel (fun _ => trivial) h : Syntax.Reads (fun _ => True) c r)
          exact ⟨hn ▸ hok c n hc, fun m hm => .inl (hcomments m hm)⟩
      | joined =>
          simp only [Rule.run] at h
          split at h
          · split at h
            · cases h
            · cases h
              exact ⟨hc, .nil⟩
          · cases h
            exact ⟨hc, .nil⟩
      | group =>
          simp only [Rule.run] at h
          obtain ⟨n, -, rfl⟩ := Option.map_eq_some_iff.mp h
          exact ⟨hok _ _ hskip, gives_trivia fuel c⟩

/-! ## Parts of a rule -/

mutual

/-- The parts of a rule that may make a node with a label of which `test` holds, the symbols apart
that `trusted` holds of. -/
def Rule.makers (test : Label → Bool) (trusted : σ → Bool) : Rule σ → List (Rule σ)
  | .mark text notBefore => if test (.token text) then [.mark text notBefore] else []
  | .keyword text => if test (.token text) then [.keyword text] else []
  | .name kind except => if test (.kind kind) then [.name kind except] else []
  | .lexeme kind raw literal => if test (.kind kind) then [.lexeme kind raw literal] else []
  | .node kind rule => if test (.kind kind) then [.node kind rule] else []
  | .seq rules | .alt rules => makersAmong test trusted rules
  | .opt rule | .many rule | .role _ rule | .fresh rule | .inside _ rule => rule.makers test trusted
  | .call symbol => if trusted symbol then [] else [.call symbol]
  | .chain base links =>
    base.makers test trusted ++
      if links.any fun | .mk kind _ _ _ => test (.kind kind) then [.chain base links] else []
  | .ahead _ | .notAhead _ | .outside _ | .semicolon | .joined | .group => []

def makersAmong (test : Label → Bool) (trusted : σ → Bool) : List (Rule σ) → List (Rule σ)
  | [] => []
  | rule :: rules => rule.makers test trusted ++ makersAmong test trusted rules

end

mutual

/-- The parts of a rule whose last node gets a role, but for those of the symbols it refers to. -/
def Rule.givers (part : Role) : Rule σ → List (Rule σ)
  | .seq rules | .alt rules => giversAmong part rules
  | .opt rule | .many rule | .fresh rule | .inside _ rule | .chain rule _ => rule.givers part
  | .role other rule => (if other = part then [rule] else []) ++ rule.givers part
  | _ => []

def giversAmong (part : Role) : List (Rule σ) → List (Rule σ)
  | [] => []
  | rule :: rules => rule.givers part ++ giversAmong part rules

end

theorem mem_ite_singleton {α : Type} {a : α} {b : Bool} (h : b = true) :
    a ∈ if b = true then [a] else [] := by
  simp [h]

theorem makers_subset {test : Label → Bool} {trusted : σ → Bool} {rule : Rule σ} :
    ∀ {rules : List (Rule σ)}, rule ∈ rules →
      ∀ part ∈ rule.makers test trusted, part ∈ makersAmong test trusted rules
  | first :: rules, hmem, part, hpart => by
      rw [makersAmong, List.mem_append]
      rcases List.mem_cons.mp hmem with rfl | hmem
      · exact .inl hpart
      · exact .inr (makers_subset hmem part hpart)

theorem givers_subset {role : Role} {rule : Rule σ} :
    ∀ {rules : List (Rule σ)}, rule ∈ rules →
      ∀ part ∈ rule.givers role, part ∈ giversAmong role rules
  | first :: rules, hmem, part, hpart => by
      rw [giversAmong, List.mem_append]
      rcases List.mem_cons.mp hmem with rfl | hmem
      · exact .inl hpart
      · exact .inr (givers_subset hmem part hpart)

/-- Two nodes that differ in their role at most. -/
def Node.Alike (n m : Node) : Prop :=
  n.label = m.label ∧ n.start = m.start ∧ n.stop = m.stop ∧ n.children = m.children

namespace Node.Alike

theorem refl (n : Node) : n.Alike n := ⟨rfl, rfl, rfl, rfl⟩

theorem trans {n m k : Node} (h : n.Alike m) (h' : m.Alike k) : n.Alike k :=
  ⟨h.1.trans h'.1, h.2.1.trans h'.2.1, h.2.2.1.trans h'.2.2.1, h.2.2.2.trans h'.2.2.2⟩

theorem withRole {n m : Node} (h : n.Alike m) (role : Role) : (n.withRole role).Alike m := by
  cases n
  exact h

theorem childrenOfKind {n m : Node} (h : n.Alike m) (kind : Kind) :
    n.childrenOfKind kind = m.childrenOfKind kind := by
  rw [Node.childrenOfKind, Node.childrenOfKind, h.2.2.2]

theorem child? {n m : Node} (h : n.Alike m) (role : Role) : n.child? role = m.child? role := by
  rw [Node.child?, Node.child?, h.2.2.2]

end Node.Alike

@[simp] theorem Node.withRole_role (role : Role) (n : Node) : (n.withRole role).role = some role := by
  cases n; rfl

namespace Makes

variable {grammar : σ → Rule σ} {endsLine : Char → Bool} {ok : Cursor → Prop} {rule : Rule σ}
  {n : Node}

/-- A node with a label that is looked for comes from one of the parts that are found. -/
theorem maker {test : Label → Bool} {trusted : σ → Bool}
    (htrusted : ∀ symbol, trusted symbol = true → (grammar symbol).makers test trusted = [])
    (h : Makes grammar endsLine ok rule n) (htest : test n.label = true) :
    ∃ part ∈ rule.makers test trusted, ∃ m, n.Alike m ∧ Makes grammar endsLine ok part m := by
  induction h with
  | @mark text notBefore start stop =>
      refine ⟨.mark text notBefore, ?_, _, .refl _, .mark start stop⟩
      rw [Rule.makers]
      exact mem_ite_singleton htest
  | @keyword text start stop =>
      refine ⟨.keyword text, ?_, _, .refl _, .keyword start stop⟩
      rw [Rule.makers]
      exact mem_ite_singleton htest
  | @name kind except _ _ hc hrest hpos =>
      refine ⟨.name kind except, ?_, _, .refl _, .name hc hrest hpos⟩
      rw [Rule.makers]
      exact mem_ite_singleton htest
  | @lexeme kind raw literal _ _ hc hscan =>
      refine ⟨.lexeme kind raw literal, ?_, _, .refl _, .lexeme hc hscan⟩
      rw [Rule.makers]
      exact mem_ite_singleton htest
  | @node kind rule _ _ _ _ hc hrun =>
      refine ⟨.node kind rule, ?_, _, .refl _, .node hc hrun⟩
      rw [Rule.makers]
      exact mem_ite_singleton htest
  | seq hmem _ ih =>
      obtain ⟨part, hpart, hmade⟩ := ih htest
      exact ⟨part, by rw [Rule.makers]; exact makers_subset hmem part hpart, hmade⟩
  | alt hmem _ ih =>
      obtain ⟨part, hpart, hmade⟩ := ih htest
      exact ⟨part, by rw [Rule.makers]; exact makers_subset hmem part hpart, hmade⟩
  | opt _ ih | many _ ih | other _ ih | fresh _ ih | inside _ ih =>
      obtain ⟨part, hpart, hmade⟩ := ih htest
      exact ⟨part, by rwa [Rule.makers], hmade⟩
  | @given role _ n _ ih =>
      obtain ⟨part, hpart, m, hm, hmade⟩ := ih (by cases n; exact htest)
      exact ⟨part, by rwa [Rule.makers], m, hm.withRole role, hmade⟩
  | @call symbol n hmade ih =>
      rw [Rule.makers]
      split
      · rename_i hsymbol
        obtain ⟨part, hpart, -⟩ := ih htest
        rw [htrusted symbol hsymbol] at hpart
        cases hpart
      · exact ⟨_, List.mem_singleton.mpr rfl, n, .refl n, .call hmade⟩
  | base _ ih =>
      obtain ⟨part, hpart, hmade⟩ := ih htest
      exact ⟨part, by rw [Rule.makers]; exact List.mem_append_left _ hpart, hmade⟩
  | @link base _ links _ _ _ start stop ns hmem =>
      refine ⟨.chain base links, ?_, _, .refl _, .link start stop ns hmem⟩
      rw [Rule.makers]
      exact List.mem_append_right _ (mem_ite_singleton (List.any_eq_true.mpr ⟨_, hmem, htest⟩))

theorem label_avoided {test : Label → Bool} {trusted : σ → Bool}
    (htrusted : ∀ symbol, trusted symbol = true → (grammar symbol).makers test trusted = [])
    (h : Makes grammar endsLine ok rule n) (hrule : rule.makers test trusted = []) :
    test n.label = false := by
  rw [Bool.eq_false_iff]
  intro htest
  obtain ⟨part, hpart, -⟩ := h.maker htrusted htest
  rw [hrule] at hpart
  cases hpart

/-- A node with a role comes from a part that gives the role. -/
theorem giver {role : Role} (hsymbols : ∀ symbol, (grammar symbol).givers role = [])
    (h : Makes grammar endsLine ok rule n) (hrole : n.role = some role) :
    ∃ part ∈ rule.givers role, ∃ m, n.Alike m ∧ Makes grammar endsLine ok part m := by
  induction h with
  | mark | keyword | name | lexeme | node | link => cases hrole
  | seq hmem _ ih =>
      obtain ⟨part, hpart, hmade⟩ := ih hrole
      exact ⟨part, by rw [Rule.givers]; exact givers_subset hmem part hpart, hmade⟩
  | alt hmem _ ih =>
      obtain ⟨part, hpart, hmade⟩ := ih hrole
      exact ⟨part, by rw [Rule.givers]; exact givers_subset hmem part hpart, hmade⟩
  | opt _ ih | many _ ih | fresh _ ih | inside _ ih | base _ ih =>
      obtain ⟨part, hpart, hmade⟩ := ih hrole
      exact ⟨part, by rwa [Rule.givers], hmade⟩
  | @given other rule n hmade _ =>
      rw [Node.withRole_role, Option.some.injEq] at hrole
      refine ⟨rule, ?_, n, (Node.Alike.refl n).withRole other, hmade⟩
      rw [Rule.givers, if_pos hrole]
      exact List.mem_append_left _ (List.mem_singleton.mpr rfl)
  | other _ ih =>
      obtain ⟨part, hpart, hmade⟩ := ih hrole
      exact ⟨part, by rw [Rule.givers]; exact List.mem_append_right _ hpart, hmade⟩
  | call _ ih =>
      obtain ⟨part, hpart, -⟩ := ih hrole
      rw [hsymbols] at hpart
      cases hpart

end Makes

end ImportAssist
