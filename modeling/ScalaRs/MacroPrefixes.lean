import ScalaRs.MacroReferences

/-! # The cached prefix

Only a call that no other surrounds caches its prefix, and the compiler notes it with
the reply. The engine holds it from when it builds it. Where a line nested too deeply
has put the two sides out of step, the outermost call gets an error. -/
namespace ScalaRs.MacroProtocol

/-- The prefix is still to be built. -/
def Expansion.Unbuilt (x : Expansion) : Prop := x.phase = .handling ∨ x.phase = .recorded

/-- The cached prefixes of the two sides. The outermost conversation is the last. -/
structure Prefixes (c : Compiler) (e : Engine) : Prop where
  le : e.expansions.length ≤ c.conversations.length
  nested : c.conversations.IsChain fun v _ => v.cacheTopLevel = false
  plain : e.expansions.IsChain fun x _ => x.request.Plain
  top : (∀ v ∈ c.conversations.getLast?, v.cacheTopLevel = false) →
    ∀ x ∈ e.expansions, x.request.Plain
  agree : (∀ v ∈ c.conversations.getLast?, v.cacheTopLevel = false) →
    ∀ k text, c.cachedPrefix = some (k, text) → e.cachedPrefix = some (k, text)
  refs : ∀ x ∈ e.expansions, x.Unbuilt → ∀ id before k elided after,
    x.request.pfx = .cachedPrefix id (.cachedPrefixRef before k elided after) →
      e.cachedPrefix = some (k, elided)
  unbuilt : e.expansions.length = c.conversations.length → ∀ v ∈ c.conversations.getLast?,
    ∀ x ∈ e.expansions.getLast?, x.Unbuilt → ∀ id text, v.cachedPrefix = some (id, text) →
      ∃ compact, x.request.pfx = .cachedPrefix id compact ∧ resolve e.cachedPrefix compact = some text
  built : e.expansions.length = c.conversations.length → ∀ v ∈ c.conversations.getLast?,
    ∀ x ∈ e.expansions.getLast?, x.phase = .built → ∀ id text, v.cachedPrefix = some (id, text) →
      e.cachedPrefix = some (id, text)

section

variable {run : CompilerRun} {c c' : Compiler} {e : Engine}

/-- An expansion that changes its phase, and builds no prefix to cache. -/
theorem Prefixes.rephase (h : Prefixes c e) {x : Expansion} {rest : List Expansion}
    (hexps : e.expansions = x :: rest) {phase : Phase} (settings : List Text)
    (sources : ℕ → Option (Text × Text))
    (hunbuilt : phase = .handling ∨ phase = .recorded → x.Unbuilt)
    (hbuilt : phase = .built → x.phase = .built ∨ x.Unbuilt ∧ x.request.Plain) :
    Prefixes c ⟨settings, sources, e.cachedPrefix, { x with phase := phase } :: rest⟩ where
  le := by
    have hle := h.le
    rw [hexps] at hle
    exact hle
  nested := h.nested
  plain := by
    have hplain := h.plain
    rw [hexps] at hplain
    cases rest with
    | nil => exact .singleton _
    | cons y rest =>
      obtain ⟨hx, hrest⟩ := List.isChain_cons_cons.mp hplain
      exact List.isChain_cons_cons.mpr ⟨hx, hrest⟩
  top := by
    intro hlast y hy
    rcases List.mem_cons.mp hy with heq | hy
    · rw [heq]
      exact h.top hlast x (hexps ▸ List.mem_cons_self)
    · exact h.top hlast y (hexps ▸ List.mem_cons_of_mem _ hy)
  agree := h.agree
  refs := by
    intro y hy hyphase
    rcases List.mem_cons.mp hy with heq | hy
    · rw [heq] at hyphase ⊢
      exact h.refs x (hexps ▸ List.mem_cons_self) (hunbuilt hyphase)
    · exact h.refs y (hexps ▸ List.mem_cons_of_mem _ hy) hyphase
  unbuilt := by
    intro hlen v hv y hy hyphase
    have hlen' : e.expansions.length = c.conversations.length := by rw [hexps]; exact hlen
    cases rest with
    | nil =>
      cases hy
      exact h.unbuilt hlen' v hv x (by rw [hexps]; rfl) (hunbuilt hyphase)
    | cons z rest =>
      apply h.unbuilt hlen' v hv y _ hyphase
      rw [hexps, List.getLast?_cons_cons]
      rwa [List.getLast?_cons_cons] at hy
  built := by
    intro hlen v hv y hy hyphase id text hcached
    have hlen' : e.expansions.length = c.conversations.length := by rw [hexps]; exact hlen
    cases rest with
    | nil =>
      cases hy
      have hx : x ∈ e.expansions.getLast? := by rw [hexps]; rfl
      rcases hbuilt hyphase with hold | ⟨hold, hplain⟩
      · exact h.built hlen' v hv x hx hold id text hcached
      · obtain ⟨compact, hpfx, _⟩ := h.unbuilt hlen' v hv x hx hold id text hcached
        exact absurd hpfx (hplain id compact)
    | cons z rest =>
      apply h.built hlen' v hv y _ hyphase id text hcached
      rw [hexps, List.getLast?_cons_cons]
      rwa [List.getLast?_cons_cons] at hy

theorem Prefixes.throwLine (h : Prefixes c e) : Prefixes c e.throwLine.1 := by
  rw [Engine.throwLine]
  cases hexps : e.expansions with
  | nil => exact h
  | cons x rest =>
    apply h.rephase hexps e.settings e.sources
    · intro hphase
      split at hphase <;> rcases hphase with hphase | hphase <;> cases hphase
    · intro hphase
      split at hphase
      · next hbuilt => exact .inl hbuilt
      · cases hphase

theorem record_spec (e : Engine) (x : Expansion) (rest : List Expansion) :
    ∃ phase settings sources, phase ≠ .built ∧
      e.record x rest = ⟨settings, sources, e.cachedPrefix, { x with phase := phase } :: rest⟩ := by
  rw [Engine.record]
  refine ⟨_, _, _, ?_, rfl⟩
  cases x.request.position with
  | none => exact Phase.noConfusion
  | src index text path =>
    simp only
    split <;> exact Phase.noConfusion

theorem Prefixes.record (h : Prefixes c e) {x : Expansion} {rest : List Expansion}
    (hexps : e.expansions = x :: rest) (hphase : x.phase = .handling) :
    Prefixes c (e.record x rest) := by
  obtain ⟨phase, settings, sources, hbuilt, hrecord⟩ := record_spec e x rest
  rw [hrecord]
  apply h.rephase hexps
  · exact fun _ => .inl hphase
  · exact fun h => absurd h hbuilt

theorem Prefixes.buildPrefix (h : Prefixes c e) {x : Expansion} {rest : List Expansion}
    (hexps : e.expansions = x :: rest) (hphase : x.phase = .recorded) :
    Prefixes c (e.buildPrefix x rest) := by
  rw [Engine.buildPrefix]
  split
  · next id compact hpfx =>
    split
    · next text htext =>
      have hx : x ∈ e.expansions := hexps ▸ List.mem_cons_self
      have hnot : ¬ x.request.Plain := fun hplain => hplain id compact hpfx
      -- no other expansion is open
      have hrest : rest = [] := by
        cases rest with
        | nil => rfl
        | cons y rest =>
          have hplain := h.plain
          rw [hexps] at hplain
          exact absurd (List.isChain_cons_cons.mp hplain).1 hnot
      rw [hrest] at hexps ⊢
      have hlast : x ∈ e.expansions.getLast? := by rw [hexps]; rfl
      exact {
        le := by
          have hle := h.le
          rw [hexps] at hle
          exact hle
        nested := h.nested
        plain := .singleton _
        top := fun hplain => absurd (h.top hplain x hx) hnot
        agree := fun hplain => absurd (h.top hplain x hx) hnot
        refs := by
          intro y hy hyphase
          rw [List.mem_singleton.mp hy] at hyphase
          rcases hyphase with hyphase | hyphase <;> cases hyphase
        unbuilt := by
          intro _ v hv y hy hyphase
          cases hy
          rcases hyphase with hyphase | hyphase <;> cases hyphase
        built := by
          intro hlen v hv y hy _ id' text' hcached
          obtain ⟨compact', hpfx', htext'⟩ := h.unbuilt (by rw [hexps]; exact hlen) v hv x hlast
            (.inr hphase) id' text' hcached
          rw [hpfx] at hpfx'
          cases hpfx'
          rw [htext] at htext'
          cases htext'
          rfl }
    · apply h.rephase hexps e.settings e.sources
      · exact fun _ => .inr hphase
      · intro hbuilt
        cases hbuilt
  · next hplain =>
    apply h.rephase hexps e.settings e.sources
    · exact fun _ => .inr hphase
    · exact fun _ => .inr ⟨.inr hphase, hplain⟩

/-- The reply of the main loop to a line it does not know. -/
theorem Prefixes.endExpansion_err (h : Prefixes c e) (hnil : e.expansions = []) :
    Prefixes (c.endExpansion .err) e := by
  rw [Compiler.endExpansion]
  cases hconv : c.conversations with
  | nil => exact h
  | cons v rest =>
    have hnested := h.nested
    rw [hconv] at hnested
    exact {
      le := by rw [hnil]; exact Nat.zero_le _
      nested := hnested.tail
      plain := by rw [hnil]; exact .nil
      top := by
        intro _ x hx
        rw [hnil] at hx
        cases hx
      agree := by
        intro hlast k text hcached
        simp only [reduceCtorEq, if_false] at hcached
        split at hcached
        · cases hcached
        · next htop =>
          apply h.agree _ k text hcached
          rw [hconv]
          cases rest with
          | nil =>
            intro v' hv'
            cases hv'
            exact Bool.eq_false_iff.mpr htop
          | cons w rest => rwa [List.getLast?_cons_cons]
      refs := by
        intro x hx
        rw [hnil] at hx
        cases hx
      unbuilt := by
        intro _ v _ x hx
        rw [hnil] at hx
        cases hx
      built := by
        intro _ v _ x hx
        rw [hnil] at hx
        cases hx }

/-- The reply of an expansion. -/
theorem Prefixes.finish (h : Prefixes c e) {x : Expansion} {rest : List Expansion} {r : Reply}
    (hexps : e.expansions = x :: rest) (hok : r = .ok → x.phase = .built) :
    Prefixes (c.endExpansion r) (e.finish x rest) := by
  have hle := h.le
  rw [hexps] at hle
  rw [Compiler.endExpansion, Engine.finish]
  cases hconv : c.conversations with
  | nil =>
    rw [hconv] at hle
    cases hle
  | cons v vs =>
    rw [hconv] at hle
    replace hle : rest.length ≤ vs.length := Nat.le_of_succ_le_succ hle
    have hnested := h.nested
    have hplain := h.plain
    rw [hconv] at hnested
    rw [hexps] at hplain
    exact {
      le := hle
      nested := hnested.tail
      plain := hplain.tail
      top := by
        intro hlast y hy
        cases vs with
        | nil =>
          rw [List.eq_nil_of_length_eq_zero (Nat.le_zero.mp hle)] at hy
          cases hy
        | cons w vs =>
          apply h.top _ y (hexps ▸ List.mem_cons_of_mem _ hy)
          rwa [hconv, List.getLast?_cons_cons]
      agree := by
        intro hlast k text hcached
        cases vs with
        | nil =>
          have hrest := List.eq_nil_of_length_eq_zero (Nat.le_zero.mp hle)
          have hv : v ∈ c.conversations.getLast? := by rw [hconv]; rfl
          simp only at hcached
          split at hcached
          · split at hcached
            · next hr =>
              apply h.built _ v hv x _ (hok hr) k text hcached
              · rw [hexps, hconv, hrest]
                rfl
              · rw [hexps, hrest]
                rfl
            · cases hcached
          · next htop =>
            apply h.agree _ k text hcached
            intro v' hv'
            rw [hconv] at hv'
            cases hv'
            exact Bool.eq_false_iff.mpr htop
        | cons w vs =>
          have hv : v.cacheTopLevel = false := (List.isChain_cons_cons.mp hnested).1
          simp only [hv, Bool.false_eq_true, if_false] at hcached
          apply h.agree _ k text hcached
          rwa [hconv, List.getLast?_cons_cons]
      refs := fun y hy => h.refs y (hexps ▸ List.mem_cons_of_mem _ hy)
      unbuilt := by
        intro hlen v' hv' y hy
        apply h.unbuilt
        · rw [hexps, hconv, List.length_cons, List.length_cons, hlen]
        · cases vs with
          | nil => cases hv'
          | cons w vs => rwa [hconv, List.getLast?_cons_cons]
        · cases rest with
          | nil => cases hy
          | cons z rest => rwa [hexps, List.getLast?_cons_cons]
      built := by
        intro hlen v' hv' y hy
        apply h.built
        · rw [hexps, hconv, List.length_cons, List.length_cons, hlen]
        · cases vs with
          | nil => cases hv'
          | cons w vs => rwa [hconv, List.getLast?_cons_cons]
        · cases rest with
          | nil => cases hy
          | cons z rest => rwa [hexps, List.getLast?_cons_cons] }

theorem conversations_eq_nil (h : c.busy = false) : c.conversations = [] := by
  rw [Compiler.busy] at h
  cases hconv : c.conversations with
  | nil => rfl
  | cons v rest =>
    rw [hconv] at h
    cases h

/-- A new conversation, before the engine has read its line. -/
theorem Prefixes.begun (h : Prefixes c e) {call : Call} {r : Request} {v : Conversation}
    (hb : Begun run c call c' r v) : Prefixes c' e := by
  have hle : e.expansions.length < c'.conversations.length := by
    rw [hb.conversations]
    exact Nat.lt_succ_of_le h.le
  have hnested : c'.conversations.IsChain fun v _ => v.cacheTopLevel = false := by
    rw [hb.conversations]
    cases hconv : c.conversations with
    | nil => exact .singleton _
    | cons w ws =>
      apply List.isChain_cons_cons.mpr
      refine ⟨?_, hconv ▸ h.nested⟩
      rw [hb.cacheTopLevel, Compiler.busy, hconv]
      exact Bool.and_false _
  -- the outermost conversation is the same, or the first one
  have hlast : (∀ w ∈ c'.conversations.getLast?, w.cacheTopLevel = false) →
      ∀ w ∈ c.conversations.getLast?, w.cacheTopLevel = false := by
    intro hfalse w hw
    apply hfalse w
    rw [hb.conversations]
    cases hconv : c.conversations with
    | nil =>
      rw [hconv] at hw
      cases hw
    | cons w' ws =>
      rw [List.getLast?_cons_cons, ← hconv]
      exact hw
  exact {
    le := Nat.le_of_lt hle
    nested := hnested
    plain := h.plain
    top := fun hfalse => h.top (hlast hfalse)
    agree := by
      rw [hb.cachedPrefix]
      exact fun hfalse => h.agree (hlast hfalse)
    refs := h.refs
    unbuilt := fun hlen => absurd hlen (Nat.ne_of_lt hle)
    built := fun hlen => absurd hlen (Nat.ne_of_lt hle) }

/-- A new expansion. -/
theorem Prefixes.push (h : Prefixes c e) {call : Call} {r : Request} {v : Conversation}
    (hb : Begun run c call c' r v) (frame : Option (List Text)) :
    Prefixes c' { e with expansions := ⟨r, .handling, frame⟩ :: e.expansions } := by
  have hbegun := h.begun hb
  have hplain : c.conversations ≠ [] → r.Plain := by
    intro hne
    rcases hb.pfx with ⟨hplain, _⟩ | ⟨_, _, _, _, _, hbusy⟩
    · exact hplain
    · exact absurd (conversations_eq_nil hbusy) hne
  have hopen : e.expansions ≠ [] → c.conversations ≠ [] := by
    intro hne hnil
    have hle := h.le
    rw [hnil] at hle
    exact hne (List.eq_nil_of_length_eq_zero (Nat.le_zero.mp hle))
  have hidle : c.conversations = [] → ∀ w ∈ c.conversations.getLast?, w.cacheTopLevel = false := by
    intro hnil w hw
    rw [hnil] at hw
    cases hw
  -- the outermost expansion is the same, or the first one
  have hlast : e.expansions.length + 1 = c'.conversations.length → ∀ w ∈ c'.conversations.getLast?,
      ∀ y ∈ ((⟨r, .handling, frame⟩ : Expansion) :: e.expansions).getLast?,
      (c.conversations = [] ∧ w = v ∧ y = ⟨r, .handling, frame⟩) ∨
        e.expansions.length = c.conversations.length ∧ w ∈ c.conversations.getLast? ∧
          y ∈ e.expansions.getLast? := by
    intro hlen w hw y hy
    rw [hb.conversations] at hlen hw
    replace hlen : e.expansions.length = c.conversations.length := Nat.succ.inj hlen
    cases hconv : c.conversations with
    | nil =>
      rw [hconv] at hlen hw
      rw [List.eq_nil_of_length_eq_zero hlen] at hy
      cases hw
      cases hy
      exact .inl ⟨rfl, rfl, rfl⟩
    | cons w' ws =>
      rw [hconv] at hlen hw
      cases hexps : e.expansions with
      | nil =>
        rw [hexps] at hlen
        cases hlen
      | cons z zs =>
        rw [hexps] at hlen hy
        rw [List.getLast?_cons_cons] at hw hy
        exact .inr ⟨hlen, hw, hy⟩
  exact {
    le := by
      rw [hb.conversations]
      exact Nat.succ_le_succ h.le
    nested := hbegun.nested
    plain := by
      cases hexps : e.expansions with
      | nil => exact .singleton _
      | cons y rest =>
        apply List.isChain_cons_cons.mpr
        exact ⟨hplain (hopen (by rw [hexps]; exact List.cons_ne_nil _ _)), hexps ▸ h.plain⟩
    top := by
      intro hfalse y hy
      rcases List.mem_cons.mp hy with heq | hy
      · rw [heq]
        rcases hb.pfx with ⟨hplain, _⟩ | ⟨_, _, _, _, hdepth, hbusy⟩
        · exact hplain
        · -- the only conversation caches its prefix
          have htop := hfalse v (by rw [hb.conversations, conversations_eq_nil hbusy]; rfl)
          rw [hb.cacheTopLevel, hdepth, hbusy] at htop
          cases htop
      · exact hbegun.top hfalse y hy
    agree := hbegun.agree
    refs := by
      intro y hy hyphase id before k elided after hpfx
      rcases List.mem_cons.mp hy with heq | hy
      · rw [heq] at hpfx
        rcases hb.pfx with ⟨hplain, _⟩ | ⟨id', built, hpfx', _, _, hbusy⟩
        · exact absurd hpfx (hplain _ _)
        · rw [hpfx'] at hpfx
          obtain ⟨_, hcompact⟩ := Receiver.cachedPrefix.inj hpfx
          rcases compact_spec (c := c) built with hwhole | ⟨_, _, _, _, hcached, hcompact', _⟩
          · rw [hwhole] at hcompact
            cases hcompact
          · rw [hcompact'] at hcompact
            cases hcompact
            exact h.agree (hidle (conversations_eq_nil hbusy)) _ _ hcached
      · exact h.refs y hy hyphase id before k elided after hpfx
    unbuilt := by
      intro hlen w hw y hy hyphase id text hcached
      rcases hlast hlen w hw y hy with ⟨hnil, rfl, rfl⟩ | ⟨hlen, hw, hy⟩
      · rcases hb.pfx with ⟨_, hnone⟩ | ⟨id', built, hpfx, hkept, _, _⟩
        · rw [hnone] at hcached
          cases hcached
        · rw [hkept] at hcached
          cases hcached
          exact ⟨_, hpfx, resolve_compact (h.agree (hidle hnil)) text⟩
      · exact h.unbuilt hlen w hw y hy hyphase id text hcached
    built := by
      intro hlen w hw y hy hyphase id text hcached
      rcases hlast hlen w hw y hy with ⟨_, _, rfl⟩ | ⟨hlen, hw, hy⟩
      · cases hyphase
      · exact h.built hlen w hw y hy hyphase id text hcached }

end

/-! ## Runs -/

section Runs

variable {run : CompilerRun} {s s' : State}

theorem Prefixes.step {event : Event} (h : Prefixes s.compiler s.engine)
    (hs : step run s event = some s') (hopen : s'.ended = false) :
    Prefixes s'.compiler s'.engine := by
  have hread : ∀ {c : Compiler} {e : Engine}, Prefixes c e → Prefixes
      (s.read c e.throwLine).compiler (s.read c e.throwLine).engine := by
    intro c e hce
    rw [State.read]
    cases hexps : e.expansions with
    | nil =>
      rw [Engine.throwLine, hexps]
      exact hce.endExpansion_err hexps
    | cons x rest =>
      have hthrow := hce.throwLine
      rw [Engine.throwLine, hexps] at hthrow ⊢
      exact hthrow
  cases event with
  | typing n =>
    obtain ⟨_, rfl⟩ := step_typing hs
    exact ⟨h.le, h.nested, h.plain, h.top, h.agree, h.refs, h.unbuilt, h.built⟩
  | request call =>
    obtain ⟨_, c', r, v, hb, rfl | rfl⟩ := step_request hs
    · cases hopen
    · rw [Engine.expandLine]
      split
      · exact hread (h.begun hb)
      · exact h.push hb _
  | answer =>
    obtain ⟨_, _, rfl⟩ := step_answer hs
    rw [State.read, Engine.answerLine]
    cases hexps : s.engine.expansions with
    | nil => exact h.endExpansion_err hexps
    | cons x rest => exact h
  | refuse =>
    obtain ⟨_, _, rfl⟩ := step_refuse hs
    exact hread h
  | query =>
    obtain ⟨_, rfl⟩ := step_query hs
    exact h
  | record =>
    obtain ⟨x, rest, hexps, _, hphase, rfl⟩ := step_record hs
    exact h.record hexps hphase
  | build =>
    obtain ⟨x, rest, hexps, _, hphase, rfl⟩ := step_build hs
    exact h.buildPrefix hexps hphase
  | reply r =>
    obtain ⟨x, rest, hexps, _, hphase, rfl⟩ := step_reply hs
    apply h.finish hexps
    intro hr
    rcases hphase with hbuilt | ⟨herr, _⟩
    · exact hbuilt
    · rw [hr] at herr
      cases herr

theorem marks_start (run : CompilerRun) : Marks run State.start.compiler State.start.engine where
  sent h := absurd rfl h
  carried _ hx := absurd hx List.not_mem_nil
  frames _ hx := absurd hx List.not_mem_nil
  settings h := Bool.noConfusion h
  texts _ hx := absurd hx List.not_mem_nil
  sameSettings _ hx := absurd hx List.not_mem_nil
  sameText _ hx := absurd hx List.not_mem_nil

theorem prefixes_start : Prefixes State.start.compiler State.start.engine where
  le := le_rfl
  nested := .nil
  plain := .nil
  top _ _ hx := absurd hx List.not_mem_nil
  agree _ _ _ h := Option.noConfusion rfl (heq_of_eq h)
  refs _ hx := absurd hx List.not_mem_nil
  unbuilt _ _ hv := Option.noConfusion rfl (heq_of_eq hv)
  built _ _ hv := Option.noConfusion rfl (heq_of_eq hv)

/-- The two sides agree in every state reached before the session ends. -/
theorem Reached.agree (h : Reached run s) (hopen : s.ended = false) :
    Marks run s.compiler s.engine ∧ Prefixes s.compiler s.engine := by
  induction h with
  | start => exact ⟨marks_start run, prefixes_start⟩
  | step h hd hs ih =>
    obtain ⟨hmarks, hprefixes⟩ := ih (not_ended_of_step hs hopen)
    exact ⟨hmarks.step hd hs hopen, hprefixes.step hs hopen⟩

/-- A session ends in the compiler's turn. -/
theorem Reached.turn (h : Reached run s) (hended : s.ended = true) : s.engineTurn = false := by
  induction h with
  | start => rfl
  | @step s s' event h hd hs ih =>
    cases event with
    | typing n =>
      obtain ⟨⟨_, hturn⟩, rfl⟩ := step_typing hs
      exact hturn
    | request call =>
      obtain ⟨⟨hopen, hturn⟩, c', r, v, hb, rfl | rfl⟩ := step_request hs
      · exact hturn
      · rw [State.read] at hended
        split at hended <;> simp [hopen] at hended
    | answer =>
      obtain ⟨⟨hopen, _⟩, _, rfl⟩ := step_answer hs
      rw [State.read] at hended
      split at hended <;> simp [hopen] at hended
    | refuse =>
      obtain ⟨⟨hopen, _⟩, _, rfl⟩ := step_refuse hs
      rw [State.read] at hended
      split at hended <;> simp [hopen] at hended
    | query =>
      obtain ⟨_, rfl⟩ := step_query hs
      rfl
    | record =>
      obtain ⟨_, _, _, _, _, rfl⟩ := step_record hs
      exact ih hended
    | build =>
      obtain ⟨_, _, _, _, _, rfl⟩ := step_build hs
      exact ih hended
    | reply r =>
      obtain ⟨_, _, _, _, _, rfl⟩ := step_reply hs
      rfl

theorem Reached.open (h : Reached run s) (hturn : s.engineTurn = true) : s.ended = false := by
  cases hended : s.ended with
  | false => rfl
  | true =>
    rw [h.turn hended] at hturn
    cases hturn

/-- In every run whose steps meet the condition, what the engine handles refers to what
it has. -/
theorem references_resolve (h : Reached run s) {event : Event} (hs : step run s event = some s') :
    Resolves run s event := by
  cases event with
  | record =>
    obtain ⟨x, rest, hexps, hturn, _, _⟩ := step_record hs
    obtain ⟨hmarks, _⟩ := h.agree (h.open hturn)
    intro y hy
    rw [hexps] at hy
    cases hy
    have hx : x ∈ s.engine.expansions := hexps ▸ List.mem_cons_self
    exact ⟨hmarks.sameSettings x hx, hmarks.sameText x hx⟩
  | build =>
    obtain ⟨x, rest, hexps, hturn, hphase, _⟩ := step_build hs
    obtain ⟨_, hprefixes⟩ := h.agree (h.open hturn)
    intro y hy
    rw [hexps] at hy
    cases hy
    exact hprefixes.refs x (hexps ▸ List.mem_cons_self) (.inr hphase)
  | typing | request | answer | refuse | query | reply => trivial

/-- One file, compiled with one setting. -/
def asyncRun : CompilerRun where
  settings := [['-', 'X', 'a', 's', 'y', 'n', 'c']]
  sources index := if index = 0 then some ['f'] else none
  paths _ := ['F']

/-- The second request of a file refers to what the first one carried. -/
theorem references_resolve_second : ∃ s s', Reached asyncRun s ∧
    step asyncRun s .record = some s' ∧ Resolves asyncRun s .record := by
  have hsent : Reached asyncRun _ := .step (e := .request ⟨0, none, 9, 300⟩) .start
    ⟨fun h => absurd h (by decide), fun x hx => absurd hx List.not_mem_nil⟩ rfl
  have hrecorded : Reached asyncRun _ := .step (e := .record) hsent trivial rfl
  have hbuilt : Reached asyncRun _ := .step (e := .build) hrecorded trivial rfl
  have hreplied : Reached asyncRun _ := .step (e := .reply .ok) hbuilt trivial rfl
  have hsecond : Reached asyncRun _ := .step (e := .request ⟨0, none, 9, 300⟩) hreplied
    ⟨fun h => absurd h (by decide), fun x hx => absurd hx List.not_mem_nil⟩ rfl
  exact ⟨_, _, hsecond, rfl, references_resolve hsecond rfl⟩

/-! ## A request that is lost -/

def runs (run : CompilerRun) (events : List Event) : Option State :=
  events.foldlM (step run) .start

/-- The first call is nested too deeply for the engine, the second refers to what it
carried. -/
theorem lost_settings : ¬ ∀ (run : CompilerRun) (events : List Event) (s s' : State) (event : Event),
    runs run events = some s → step run s event = some s' → Resolves run s event := by
  intro hall
  have hresolves := hall asyncRun [.request ⟨0, none, 600, 9000⟩, .request ⟨0, none, 9, 300⟩] _ _
    .record rfl rfl
  have hsettings := (hresolves _ rfl).1 rfl
  cases hsettings

end Runs
end ScalaRs.MacroProtocol
