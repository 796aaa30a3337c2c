import ScalaRs.MacroProtocol
import Mathlib.Data.List.Chain

/-! # When the back-references resolve

The compiler marks the settings and the texts of files as sent when it sends them, the
engine records them when it has asked its questions about the receiver. They agree in
the runs in which nothing that is under way is lost or referred to. -/
namespace ScalaRs.MacroProtocol
open Wire

def Engine.HasText (run : CompilerRun) (e : Engine) (index : ℕ) : Prop :=
  ∃ text, run.sources index = some text ∧ e.sources index = some (text, run.paths index)

def Request.CarriesText (r : Request) (index : ℕ) : Prop :=
  ∃ text path, r.position = .src index (some text) path

/-- Nothing is lost when the expansion fails. -/
def Expansion.Settled (x : Expansion) : Prop :=
  x.phase = .handling → x.request.settings = .settingsSame ∧ ∀ index, ¬ x.request.CarriesText index

/-- The condition on a step: a line that is nested too deeply carries nothing new and
breaks off no request that does, no such request is refused an answer while it is
handled, and a request does not refer to what is under way. -/
def Delivered (run : CompilerRun) (s : State) : Event → Prop
  | .request call =>
    (call.nesting > maxWireDepth → s.compiler.settingsSent = true ∧
      ((run.sources call.file).isSome → call.file ∈ s.compiler.sourcesSent) ∧
      ∀ x ∈ s.engine.expansions.head?, x.Settled) ∧
    ∀ x ∈ s.engine.expansions, x.phase = .handling →
      x.request.settings = .settingsSame ∧ ¬ x.request.CarriesText call.file
  | .refuse => ∀ x ∈ s.engine.expansions.head?, x.Settled
  | _ => True

/-- The states of the runs whose steps meet the condition. -/
inductive Reached (run : CompilerRun) : State → Prop
  | start : Reached run .start
  | step {s s' : State} {e : Event} (h : Reached run s) (hd : Delivered run s e)
    (hs : step run s e = some s') : Reached run s'

/-! ## What a request says -/

section Requests

variable {run : CompilerRun} {c : Compiler} {call : Call}

theorem isPrefixOf_of_findKeyed {haystack needle key : Text} {start i : ℕ}
    (h : findKeyed haystack needle key start = some i) : needle.isPrefixOf (haystack.drop i) := by
  fun_induction findKeyed haystack needle key start with
  | case1 => cases h
  | case2 start offset _ hprefix =>
    cases h
    exact hprefix
  | case3 start offset _ _ _ ih => exact ih h
  | case4 => cases h

theorem eq_nil_of_leadingSlice {text : Text} (h : leadingSlice 48 text = []) : text = [] := by
  cases text with
  | nil => rfl
  | cons c text =>
    have hsize := c.utf8Size_le_four
    rw [leadingSlice, if_pos (by omega)] at h
    cases h

/-- The needle is where it is found. -/
theorem isPrefix_of_findLarge {haystack needle : Text} {i : ℕ} (h : findLarge haystack needle = some i) :
    needle <+: haystack.drop i := by
  rw [findLarge] at h
  split at h
  · cases h
  · split at h
    · next hkey =>
      rw [eq_nil_of_leadingSlice hkey]
      exact List.nil_prefix
    · exact List.isPrefixOf_iff_prefix.mp (isPrefixOf_of_findKeyed h)

/-- What the reference stands for completes the text. -/
theorem compact_spec (built : Text) :
    c.compact built = .whole built ∨ ∃ before k previous after, c.cachedPrefix = some (k, previous) ∧
      c.compact built = .cachedPrefixRef before k previous after ∧ before ++ previous ++ after = built := by
  rw [Compiler.compact]
  split
  · exact .inl rfl
  · next k previous hcached =>
    split
    · exact .inl rfl
    · next i hfind =>
      refine .inr ⟨built.take i, k, previous, built.drop (i + previous.length), hcached, rfl, ?_⟩
      obtain ⟨after, hafter⟩ := isPrefix_of_findLarge hfind
      rw [← List.drop_drop, ← hafter, List.drop_left, List.append_assoc, hafter, List.take_append_drop]

theorem resolve_compact {held : Option (ℕ × Text)} (hagree : ∀ k t, c.cachedPrefix = some (k, t) →
    held = some (k, t)) (built : Text) : resolve held (c.compact built) = some built := by
  rcases compact_spec (c := c) built with hwhole | ⟨before, k, previous, after, hcached, hcompact, htext⟩
  · rw [hwhole, resolve]
  · rw [hcompact, resolve, hagree k previous hcached, Option.bind_some, if_pos rfl, htext]

/-- No prefix to cache. -/
def Request.Plain (r : Request) : Prop := ∀ id compact, r.pfx ≠ .cachedPrefix id compact

/-- What a new request says, and what the compiler notes of it. -/
structure Begun (run : CompilerRun) (c : Compiler) (call : Call) (c' : Compiler) (r : Request)
    (v : Conversation) : Prop where
  conversations : c'.conversations = v :: c.conversations
  cachedPrefix : c'.cachedPrefix = c.cachedPrefix
  cacheTopLevel : v.cacheTopLevel = (c.macroDepth == 0 && !c.busy)
  nesting : r.nesting = call.nesting
  settingsSent : c'.settingsSent = true
  settings : r.settings = if c.settingsSent then .settingsSame else .settings run.settings
  unknown : run.sources call.file = none → r.position = .none ∧ c'.sourcesSent = c.sourcesSent
  known : ∀ text, run.sources call.file = some text → call.file ∈ c.sourcesSent →
    r.position = .src call.file none (run.paths call.file) ∧ c'.sourcesSent = c.sourcesSent
  new : ∀ text, run.sources call.file = some text → call.file ∉ c.sourcesSent →
    r.position = .src call.file (some text) (run.paths call.file) ∧
      c'.sourcesSent = call.file :: c.sourcesSent
  pfx : r.Plain ∧ v.cachedPrefix = none ∨ ∃ id built, r.pfx = .cachedPrefix id (c.compact built) ∧
    v.cachedPrefix = some (id, built) ∧ c.macroDepth = 0 ∧ c.busy = false

theorem expansionRequest_spec (run : CompilerRun) (c : Compiler) (call : Call) :
    ∃ n r kept, c.expansionRequest run call = ({ c with nextPrefixId := n }, r, kept) ∧
      r.settings = .settings run.settings ∧ r.nesting = call.nesting ∧
      (r.position = match run.sources call.file with
        | some _ => .src call.file none (run.paths call.file)
        | none => .none) ∧
      (r.Plain ∧ kept = none ∨ ∃ id built, r.pfx = .cachedPrefix id (c.compact built) ∧
        kept = some (id, built) ∧ c.macroDepth = 0 ∧ c.busy = false) := by
  rw [Compiler.expansionRequest]
  cases call.pfx with
  | none =>
    refine ⟨c.nextPrefixId, _, _, rfl, rfl, rfl, rfl, .inl ⟨?_, rfl⟩⟩
    intro id compact h
    cases h
  | some built =>
    by_cases hcache : utf8Length built ≥ 4096 ∧ c.macroDepth = 0 ∧ c.busy = false
    · simp only [if_pos hcache]
      exact ⟨_, _, _, rfl, rfl, rfl, rfl, .inr ⟨_, built, rfl, rfl, hcache.2⟩⟩
    · simp only [if_neg hcache]
      refine ⟨c.nextPrefixId, _, _, rfl, rfl, rfl, rfl, .inl ⟨?_, rfl⟩⟩
      intro id compact h
      cases h

theorem elideSentSettings_spec (c : Compiler) (r : Request) :
    c.elideSentSettings r = ({ c with settingsSent := true },
      { r with settings := if c.settingsSent then .settingsSame else r.settings }) := by
  rw [Compiler.elideSentSettings]
  cases hsent : c.settingsSent with
  | true =>
    rw [if_pos rfl, if_pos rfl, ← hsent]
  | false => rfl

theorem beginExpansion_spec (run : CompilerRun) (c : Compiler) (call : Call) :
    ∃ c' r v, c.beginExpansion run call = (c', r) ∧ Begun run c call c' r v := by
  obtain ⟨n, r, kept, hrequest, hsettings, hnesting, hposition, hpfx⟩ :=
    expansionRequest_spec run c call
  rw [Compiler.beginExpansion, hrequest]
  simp only [elideSentSettings_spec]
  refine ⟨_, _, ⟨c.macroDepth == 0 && !c.busy, kept⟩, rfl, ?_⟩
  cases hsource : run.sources call.file with
  | none =>
    rw [hsource] at hposition
    have hfill : Compiler.fillSourceText run { c with nextPrefixId := n } r =
        ({ c with nextPrefixId := n }, r) := by
      rw [Compiler.fillSourceText, hposition]
    rw [hfill]
    refine ⟨rfl, rfl, rfl, hnesting, rfl, by rw [hsettings], fun _ => ⟨hposition, rfl⟩, ?_, ?_, hpfx⟩
    · intro text htext
      rw [hsource] at htext
      cases htext
    · intro text htext
      rw [hsource] at htext
      cases htext
  | some text =>
    rw [hsource] at hposition
    have hknown : run.sources call.file ≠ none := hsource ▸ Option.some_ne_none text
    by_cases hsent : call.file ∈ c.sourcesSent
    · have hfill : Compiler.fillSourceText run { c with nextPrefixId := n } r =
          ({ c with nextPrefixId := n }, r) := by
        rw [Compiler.fillSourceText, hposition]
        exact if_pos hsent
      rw [hfill]
      exact ⟨rfl, rfl, rfl, hnesting, rfl, by rw [hsettings], fun h => absurd h hknown,
        fun _ _ _ => ⟨hposition, rfl⟩, fun _ _ hnew => absurd hsent hnew, hpfx⟩
    · have hfill : Compiler.fillSourceText run { c with nextPrefixId := n } r =
          ({ c with nextPrefixId := n, sourcesSent := call.file :: c.sourcesSent },
            { r with position := .src call.file (some text) (run.paths call.file) }) := by
        rw [Compiler.fillSourceText, hposition]
        simp only [if_neg hsent, hsource]
      rw [hfill]
      refine ⟨rfl, rfl, rfl, hnesting, rfl, by rw [hsettings], fun h => absurd h hknown,
        fun _ _ hold => absurd hold hsent, ?_, hpfx⟩
      intro text' htext' _
      rw [hsource] at htext'
      cases htext'
      exact ⟨rfl, rfl⟩

end Requests

/-! ## What has been sent -/

/-- What is marked as sent is recorded or under way, and what a request refers to is
recorded. -/
structure Marks (run : CompilerRun) (c : Compiler) (e : Engine) : Prop where
  sent : e.expansions ≠ [] → c.settingsSent = true
  carried : ∀ x ∈ e.expansions, (∀ options, x.request.settings = .settings options →
      options = run.settings) ∧
    ∀ index text path, x.request.position = .src index (some text) path →
      run.sources index = some text ∧ path = run.paths index
  frames : ∀ x ∈ e.expansions, ∀ settings, x.frame = some settings → settings = run.settings
  settings : c.settingsSent = true → e.settings = run.settings ∨
    ∃ x ∈ e.expansions, x.phase = .handling ∧ x.request.settings ≠ .settingsSame
  texts : ∀ index ∈ c.sourcesSent, e.HasText run index ∨
    ∃ x ∈ e.expansions, x.phase = .handling ∧ x.request.CarriesText index
  sameSettings : ∀ x ∈ e.expansions, x.request.settings = .settingsSame → e.settings = run.settings
  sameText : ∀ x ∈ e.expansions, ∀ index path, x.request.position = .src index none path →
    e.HasText run index

section Marks

variable {run : CompilerRun} {c c' : Compiler} {e e' : Engine}

/-- The engine goes on: its expansions are as they were, but some are gone or in another
phase, and what is no longer under way is recorded. -/
theorem Marks.mono (h : Marks run c e) (hsent : c'.settingsSent = c.settingsSent)
    (hsources : c'.sourcesSent = c.sourcesSent)
    (hsettings : e.settings = run.settings → e'.settings = run.settings)
    (htexts : ∀ index, e.HasText run index → e'.HasText run index)
    (hold : ∀ x' ∈ e'.expansions, ∃ x ∈ e.expansions, x'.request = x.request ∧ x'.frame = x.frame)
    (hway : ∀ x ∈ e.expansions, x.phase = .handling →
      (∃ x' ∈ e'.expansions, x'.phase = .handling ∧ x'.request = x.request) ∨
      (x.request.settings ≠ .settingsSame → e'.settings = run.settings) ∧
        ∀ index, x.request.CarriesText index → e'.HasText run index) : Marks run c' e' where
  sent := by
    intro hne
    obtain ⟨x', hx'⟩ := List.exists_mem_of_ne_nil _ hne
    obtain ⟨x, hx, _⟩ := hold x' hx'
    rw [hsent]
    exact h.sent (List.ne_nil_of_mem hx)
  carried := by
    intro x' hx'
    obtain ⟨x, hx, hrequest, _⟩ := hold x' hx'
    rw [hrequest]
    exact h.carried x hx
  frames := by
    intro x' hx'
    obtain ⟨x, hx, _, hframe⟩ := hold x' hx'
    rw [hframe]
    exact h.frames x hx
  settings := by
    intro hs
    rcases h.settings (hsent ▸ hs) with hheld | ⟨x, hx, hphase, hcarry⟩
    · exact .inl (hsettings hheld)
    · rcases hway x hx hphase with ⟨x', hx', hphase', hrequest⟩ | ⟨hrecorded, _⟩
      · exact .inr ⟨x', hx', hphase', hrequest ▸ hcarry⟩
      · exact .inl (hrecorded hcarry)
  texts := by
    intro index hindex
    rcases h.texts index (hsources ▸ hindex) with hheld | ⟨x, hx, hphase, hcarry⟩
    · exact .inl (htexts index hheld)
    · rcases hway x hx hphase with ⟨x', hx', hphase', hrequest⟩ | ⟨_, hrecorded⟩
      · exact .inr ⟨x', hx', hphase', hrequest ▸ hcarry⟩
      · exact .inl (hrecorded index hcarry)
  sameSettings := by
    intro x' hx' hsame
    obtain ⟨x, hx, hrequest, _⟩ := hold x' hx'
    exact hsettings (h.sameSettings x hx (hrequest ▸ hsame))
  sameText := by
    intro x' hx' index path hposition
    obtain ⟨x, hx, hrequest, _⟩ := hold x' hx'
    exact htexts index (h.sameText x hx index path (hrequest ▸ hposition))

theorem Marks.endExpansion (h : Marks run c e) (reply : Reply) : Marks run (c.endExpansion reply) e := by
  apply h.mono
  · rw [Compiler.endExpansion]
    split <;> rfl
  · rw [Compiler.endExpansion]
    split <;> rfl
  · exact id
  · exact fun _ => id
  · exact fun x hx => ⟨x, hx, rfl, rfl⟩
  · exact fun x hx hphase => .inl ⟨x, hx, hphase, rfl⟩

/-- An exception loses nothing where nothing is under way. -/
theorem Marks.throwLine (h : Marks run c e) (hsettled : ∀ x ∈ e.expansions.head?, x.Settled) :
    Marks run c e.throwLine.1 := by
  rw [Engine.throwLine]
  cases hexps : e.expansions with
  | nil => exact h
  | cons x rest =>
    rw [hexps] at hsettled
    change Marks run c { e with expansions := x.throwInto :: rest }
    apply h.mono rfl rfl
    · exact id
    · exact fun _ => id
    · intro x' hx'
      rw [hexps]
      rcases List.mem_cons.mp hx' with heq | hx'
      · exact ⟨x, List.mem_cons_self, by rw [heq]; rfl, by rw [heq]; rfl⟩
      · exact ⟨x', List.mem_cons_of_mem _ hx', rfl, rfl⟩
    · intro y hy hphase
      rw [hexps] at hy
      rcases List.mem_cons.mp hy with heq | hy
      · obtain ⟨hsame, hplain⟩ := hsettled x rfl (heq ▸ hphase)
        rw [heq]
        exact .inr ⟨fun hne => absurd hsame hne, fun index hcarry => absurd hcarry (hplain index)⟩
      · exact .inl ⟨y, List.mem_cons_of_mem _ hy, hphase, rfl⟩

/-- Handling a request, the engine finds what the request refers to. -/
theorem Marks.record (h : Marks run c e) {x : Expansion} {rest : List Expansion}
    (hexps : e.expansions = x :: rest) : Marks run c (e.record x rest) := by
  have hx : x ∈ e.expansions := hexps ▸ List.mem_cons_self
  have hsettings : x.request.settings ≠ .settingsSame ∨ e.settings = run.settings →
      (e.record x rest).settings = run.settings := by
    intro hor
    rw [Engine.record]
    cases hs : x.request.settings with
    | settings options => exact (h.carried x hx).1 options hs
    | settingsSame =>
      rcases hor with hne | hheld
      · exact absurd hs hne
      · exact hheld
  have htexts : ∀ index, x.request.CarriesText index ∨ e.HasText run index →
      (e.record x rest).HasText run index := by
    intro index hor
    rw [Engine.record, Engine.HasText]
    cases hp : x.request.position with
    | none =>
      rcases hor with ⟨text, path, hcarry⟩ | hheld
      · rw [hp] at hcarry
        cases hcarry
      · exact hheld
    | src index' text path =>
      cases text with
      | none =>
        rcases hor with ⟨text, path, hcarry⟩ | hheld
        · rw [hp] at hcarry
          cases hcarry
        · exact hheld
      | some text =>
        obtain ⟨hsource, hpath⟩ := (h.carried x hx).2 index' text path hp
        by_cases hindex : index = index'
        · refine ⟨text, hindex ▸ hsource, ?_⟩
          simp only
          rw [hindex, Function.update_self, hpath]
        · rcases hor with ⟨text', path', hcarry⟩ | ⟨text', hsource', hheld⟩
          · rw [hp] at hcarry
            cases hcarry
            exact absurd rfl hindex
          · refine ⟨text', hsource', ?_⟩
            simp only
            rw [Function.update_of_ne hindex, hheld]
  apply h.mono rfl rfl
  · exact fun hheld => hsettings (.inr hheld)
  · exact fun index hheld => htexts index (.inr hheld)
  · intro x' hx'
    rw [hexps]
    rcases List.mem_cons.mp hx' with heq | hx'
    · exact ⟨x, List.mem_cons_self, by rw [heq], by rw [heq]⟩
    · exact ⟨x', List.mem_cons_of_mem _ hx', rfl, rfl⟩
  · intro y hy hphase
    rw [hexps] at hy
    rcases List.mem_cons.mp hy with heq | hy
    · rw [heq]
      exact .inr ⟨fun hne => hsettings (.inl hne), fun index hcarry => htexts index (.inl hcarry)⟩
    · exact .inl ⟨y, List.mem_cons_of_mem _ hy, hphase, rfl⟩

theorem buildPrefix_spec (e : Engine) (x : Expansion) (rest : List Expansion) :
    (e.buildPrefix x rest).settings = e.settings ∧ (e.buildPrefix x rest).sources = e.sources ∧
      ∃ phase, phase ≠ .handling ∧ (e.buildPrefix x rest).expansions = { x with phase := phase } :: rest := by
  rw [Engine.buildPrefix]
  split
  · split
    · exact ⟨rfl, rfl, .built, by decide, rfl⟩
    · exact ⟨rfl, rfl, .failed, by decide, rfl⟩
  · exact ⟨rfl, rfl, .built, by decide, rfl⟩

theorem Marks.buildPrefix (h : Marks run c e) {x : Expansion} {rest : List Expansion}
    (hexps : e.expansions = x :: rest) (hphase : x.phase = .recorded) :
    Marks run c (e.buildPrefix x rest) := by
  obtain ⟨hsettings, hsources, phase, _, hexps'⟩ := buildPrefix_spec e x rest
  apply h.mono rfl rfl
  · rw [hsettings]
    exact id
  · intro index
    rw [Engine.HasText, Engine.HasText, hsources]
    exact id
  · intro x' hx'
    rw [hexps'] at hx'
    rw [hexps]
    rcases List.mem_cons.mp hx' with heq | hx'
    · exact ⟨x, List.mem_cons_self, by rw [heq], by rw [heq]⟩
    · exact ⟨x', List.mem_cons_of_mem _ hx', rfl, rfl⟩
  · intro y hy hhandling
    rw [hexps] at hy
    rcases List.mem_cons.mp hy with heq | hy
    · rw [heq, hphase] at hhandling
      cases hhandling
    · exact .inl ⟨y, hexps' ▸ List.mem_cons_of_mem _ hy, hhandling, rfl⟩

theorem Marks.finish (h : Marks run c e) {x : Expansion} {rest : List Expansion}
    (hexps : e.expansions = x :: rest) (hphase : x.phase ≠ .handling) :
    Marks run c (e.finish x rest) := by
  apply h.mono rfl rfl
  · intro hheld
    rw [Engine.finish]
    cases hframe : x.frame with
    | none => exact hheld
    | some settings => exact h.frames x (hexps ▸ List.mem_cons_self) settings hframe
  · exact fun _ => id
  · intro x' hx'
    exact ⟨x', hexps ▸ List.mem_cons_of_mem _ hx', rfl, rfl⟩
  · intro y hy hhandling
    rw [hexps] at hy
    rcases List.mem_cons.mp hy with heq | hy
    · exact absurd (heq ▸ hhandling) hphase
    · exact .inl ⟨y, hy, hhandling, rfl⟩

/-- A new request refers to what is recorded, as nothing it refers to is under way. -/
theorem Marks.push (h : Marks run c e) {call : Call} {r : Request} {v : Conversation}
    (hb : Begun run c call c' r v) (hway : ∀ x ∈ e.expansions, x.phase = .handling →
      x.request.settings = .settingsSame ∧ ¬ x.request.CarriesText call.file) :
    Marks run c' { e with expansions := ⟨r, .handling, if e.expansions.isEmpty then none
      else some e.settings⟩ :: e.expansions } := by
  have hsame : c.settingsSent = true → e.settings = run.settings := by
    intro hsent
    rcases h.settings hsent with hheld | ⟨x, hx, hphase, hcarry⟩
    · exact hheld
    · exact absurd (hway x hx hphase).1 hcarry
  have htext : call.file ∈ c.sourcesSent → e.HasText run call.file := by
    intro hsent
    rcases h.texts call.file hsent with hheld | ⟨x, hx, hphase, hcarry⟩
    · exact hheld
    · exact absurd hcarry (hway x hx hphase).2
  -- what is new goes with the request
  have hposition : ∀ index, (∀ path, r.position = .src index none path → index ∈ c.sourcesSent ∧
      index = call.file) ∧ (index ∈ c'.sourcesSent → index ∈ c.sourcesSent ∨ r.CarriesText index) ∧
      ∀ text path, r.position = .src index (some text) path →
        run.sources index = some text ∧ path = run.paths index := by
    intro index
    cases hsource : run.sources call.file with
    | none =>
      obtain ⟨hp, hs⟩ := hb.unknown hsource
      rw [hp, hs]
      refine ⟨?_, .inl, ?_⟩
      · intro path hsrc
        cases hsrc
      · intro text path hsrc
        cases hsrc
    | some text =>
      by_cases hsent : call.file ∈ c.sourcesSent
      · obtain ⟨hp, hs⟩ := hb.known text hsource hsent
        rw [hp, hs]
        refine ⟨?_, .inl, ?_⟩
        · intro path hsrc
          cases hsrc
          exact ⟨hsent, rfl⟩
        · intro text path hsrc
          cases hsrc
      · obtain ⟨hp, hs⟩ := hb.new text hsource hsent
        refine ⟨?_, ?_, ?_⟩
        · intro path hsrc
          rw [hp] at hsrc
          cases hsrc
        · intro hindex
          rw [hs] at hindex
          rcases List.mem_cons.mp hindex with heq | hindex
          · exact .inr ⟨text, run.paths call.file, heq ▸ hp⟩
          · exact .inl hindex
        · intro text' path hsrc
          rw [hp] at hsrc
          cases hsrc
          exact ⟨hsource, rfl⟩
  exact {
    sent := fun _ => hb.settingsSent
    carried := by
      intro x hx
      rcases List.mem_cons.mp hx with heq | hx
      · rw [heq]
        refine ⟨?_, fun index => (hposition index).2.2⟩
        intro options hoptions
        have hr := hb.settings
        rw [hoptions] at hr
        split at hr
        · cases hr
        · cases hr
          rfl
      · exact h.carried x hx
    frames := by
      intro x hx settings hframe
      rcases List.mem_cons.mp hx with heq | hx
      · rw [heq] at hframe
        simp only at hframe
        split at hframe
        · cases hframe
        · next hopen =>
          cases hframe
          exact hsame (h.sent fun hnil => hopen (by rw [hnil]; rfl))
      · exact h.frames x hx settings hframe
    settings := by
      intro _
      cases hsent : c.settingsSent with
      | true => exact .inl (hsame hsent)
      | false =>
        refine .inr ⟨_, List.mem_cons_self, rfl, ?_⟩
        have hr := hb.settings
        rw [hsent] at hr
        rw [hr]
        exact Settings.noConfusion
    texts := by
      intro index hindex
      rcases (hposition index).2.1 hindex with hold | hcarry
      · rcases h.texts index hold with hheld | ⟨x, hx, hphase, hcarry⟩
        · exact .inl hheld
        · exact .inr ⟨x, List.mem_cons_of_mem _ hx, hphase, hcarry⟩
      · exact .inr ⟨_, List.mem_cons_self, rfl, hcarry⟩
    sameSettings := by
      intro x hx hsettings
      rcases List.mem_cons.mp hx with heq | hx
      · rw [heq] at hsettings
        have hr := hb.settings
        rw [hsettings] at hr
        split at hr
        · next hsent => exact hsame hsent
        · cases hr
      · exact h.sameSettings x hx hsettings
    sameText := by
      intro x hx index path hsrc
      rcases List.mem_cons.mp hx with heq | hx
      · rw [heq] at hsrc
        obtain ⟨hsent, hindex⟩ := (hposition index).1 path hsrc
        rw [hindex] at hsent ⊢
        exact htext hsent
      · exact h.sameText x hx index path hsrc }

theorem Marks.read {s : State} {r : Engine × Option Reply} (h : Marks run c r.1) :
    Marks run (s.read c r).compiler (s.read c r).engine := by
  rw [State.read]
  split
  · exact h
  · exact h.endExpansion _

/-- A line nested too deeply carries nothing. -/
theorem Marks.begun_old (h : Marks run c e) {call : Call} {r : Request} {v : Conversation}
    (hb : Begun run c call c' r v) (hsent : c.settingsSent = true)
    (hfile : (run.sources call.file).isSome → call.file ∈ c.sourcesSent) : Marks run c' e := by
  have hsources : c'.sourcesSent = c.sourcesSent := by
    cases hsource : run.sources call.file with
    | none => exact (hb.unknown hsource).2
    | some text => exact (hb.known text hsource (hfile (by rw [hsource]; rfl))).2
  apply h.mono (hb.settingsSent.trans hsent.symm) hsources
  · exact id
  · exact fun _ => id
  · exact fun x hx => ⟨x, hx, rfl, rfl⟩
  · exact fun x hx hphase => .inl ⟨x, hx, hphase, rfl⟩

end Marks

/-! ## Steps -/

section Steps

variable {run : CompilerRun} {s s' : State}

section
-- Derives the equations of these definitions in front of the proofs that use them.
attribute [local simp] step
end

theorem step_typing {n : ℕ} (h : step run s (.typing n) = some s') :
    (s.ended = false ∧ s.engineTurn = false) ∧
      s' = { s with compiler := { s.compiler with macroDepth := n } } := by
  simp only [step] at h
  split at h
  · cases h
  · next hturn =>
    cases h
    exact ⟨by simp_all, rfl⟩

theorem step_request {call : Call} (h : step run s (.request call) = some s') :
    (s.ended = false ∧ s.engineTurn = false) ∧ ∃ c' r v, Begun run s.compiler call c' r v ∧
      (s' = { s with compiler := c', ended := true } ∨
        s' = s.read c' (s.engine.expandLine r)) := by
  obtain ⟨c', r, v, hbegin, hb⟩ := beginExpansion_spec run s.compiler call
  simp only [step, hbegin] at h
  split at h
  · cases h
  · next hturn =>
    refine ⟨by simp_all, c', r, v, hb, ?_⟩
    split at h
    · cases h
      exact .inl rfl
    · cases h
      exact .inr rfl

theorem step_answer (h : step run s .answer = some s') :
    (s.ended = false ∧ s.engineTurn = false) ∧ s.compiler.conversations ≠ [] ∧
      s' = s.read s.compiler s.engine.answerLine := by
  simp only [step] at h
  split at h
  · cases h
  · next hturn =>
    cases h
    exact ⟨by simp_all, by simp_all, rfl⟩

theorem step_refuse (h : step run s .refuse = some s') :
    (s.ended = false ∧ s.engineTurn = false) ∧ s.compiler.conversations ≠ [] ∧
      s' = s.read s.compiler s.engine.throwLine := by
  simp only [step] at h
  split at h
  · cases h
  · next hturn =>
    cases h
    exact ⟨by simp_all, by simp_all, rfl⟩

theorem step_query (h : step run s .query = some s') :
    s.engineTurn = true ∧ s' = { s with engineTurn := false } := by
  simp only [step] at h
  split at h
  · next hturn _ =>
    split at h
    · cases h
    · cases h
      exact ⟨hturn, rfl⟩
  · cases h

theorem step_record (h : step run s .record = some s') :
    ∃ x rest, s.engine.expansions = x :: rest ∧ s.engineTurn = true ∧ x.phase = .handling ∧
      s' = { s with engine := s.engine.record x rest } := by
  simp only [step] at h
  split at h
  · next x rest hturn hexps =>
    split at h
    · next hphase =>
      cases h
      exact ⟨x, rest, hexps, hturn, hphase, rfl⟩
    · cases h
  · cases h

theorem step_build (h : step run s .build = some s') :
    ∃ x rest, s.engine.expansions = x :: rest ∧ s.engineTurn = true ∧ x.phase = .recorded ∧
      s' = { s with engine := s.engine.buildPrefix x rest } := by
  simp only [step] at h
  split at h
  · next x rest hturn hexps =>
    split at h
    · next hphase =>
      cases h
      exact ⟨x, rest, hexps, hturn, hphase, rfl⟩
    · cases h
  · cases h

theorem step_reply {r : Reply} (h : step run s (.reply r) = some s') :
    ∃ x rest, s.engine.expansions = x :: rest ∧ s.engineTurn = true ∧
      (x.phase = .built ∨ r = .err ∧ x.phase ≠ .handling) ∧
      s' = { s with
        compiler := s.compiler.endExpansion r
        engine := s.engine.finish x rest
        engineTurn := false } := by
  simp only [step] at h
  split at h
  · next x rest hturn hexps =>
    split at h
    · next hphase =>
      cases h
      exact ⟨x, rest, hexps, hturn, hphase, rfl⟩
    · cases h
  · cases h

theorem Marks.step {event : Event} (h : Marks run s.compiler s.engine) (hd : Delivered run s event)
    (hs : step run s event = some s') (hopen : s'.ended = false) :
    Marks run s'.compiler s'.engine := by
  cases event with
  | typing n =>
    obtain ⟨_, rfl⟩ := step_typing hs
    exact ⟨h.sent, h.carried, h.frames, h.settings, h.texts, h.sameSettings, h.sameText⟩
  | request call =>
    obtain ⟨_, c', r, v, hb, rfl | rfl⟩ := step_request hs
    · cases hopen
    · obtain ⟨hdeep, hway⟩ := hd
      apply Marks.read
      rw [Engine.expandLine, hb.nesting]
      split
      · next hnesting =>
        obtain ⟨hsent, hfile, hsettled⟩ := hdeep hnesting
        exact (h.begun_old hb hsent hfile).throwLine hsettled
      · exact h.push hb hway
  | answer =>
    obtain ⟨_, _, rfl⟩ := step_answer hs
    apply Marks.read
    rw [Engine.answerLine]
    split <;> exact h
  | refuse =>
    obtain ⟨_, _, rfl⟩ := step_refuse hs
    exact (h.throwLine hd).read
  | query =>
    obtain ⟨_, rfl⟩ := step_query hs
    exact h
  | record =>
    obtain ⟨x, rest, hexps, _, _, rfl⟩ := step_record hs
    exact h.record hexps
  | build =>
    obtain ⟨x, rest, hexps, _, hphase, rfl⟩ := step_build hs
    exact h.buildPrefix hexps hphase
  | reply r =>
    obtain ⟨x, rest, hexps, _, hphase, rfl⟩ := step_reply hs
    have hne : x.phase ≠ .handling := by
      rcases hphase with hbuilt | ⟨_, hne⟩
      · rw [hbuilt]
        decide
      · exact hne
    exact (h.finish hexps hne).endExpansion r

/-- A step of a session that goes on comes from one. -/
theorem not_ended_of_step {event : Event} (hs : step run s event = some s') (hopen : s'.ended = false) :
    s.ended = false := by
  cases hended : s.ended with
  | false => rfl
  | true =>
    cases event with
    | typing n => simp [step, hended] at hs
    | request call => simp [step, hended] at hs
    | answer => simp [step, hended] at hs
    | refuse => simp [step, hended] at hs
    | query =>
      obtain ⟨_, rfl⟩ := step_query hs
      exact absurd hended (by rw [hopen]; decide)
    | record =>
      obtain ⟨_, _, _, _, _, rfl⟩ := step_record hs
      exact absurd hended (by rw [hopen]; decide)
    | build =>
      obtain ⟨_, _, _, _, _, rfl⟩ := step_build hs
      exact absurd hended (by rw [hopen]; decide)
    | reply r =>
      obtain ⟨_, _, _, _, _, rfl⟩ := step_reply hs
      exact absurd hended (by rw [hopen]; decide)

end Steps
end ScalaRs.MacroProtocol
