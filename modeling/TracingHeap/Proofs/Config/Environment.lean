import TracingHeap.Config.Environment
import TracingHeap.Proofs.Computation
import TracingHeap.Proofs.Text.Spelling

/-! What settings come to.

A setting expresses a value or nothing. The configuration that is read is the one that its settings express, with the
defaults of those that are not set, and the report of a failure is about the first setting that expresses nothing. -/

set_option autoImplicit false

namespace TracingHeap

/-! ### Spellings -/

/-- The words for a strategy, in small letters. -/
def Strategy.spellings : Strategy → List String
  | markSweep => ["mark_sweep", "mark-sweep", "marksweep"]
  | copying => ["copying", "semispace", "semi_space"]
  | leaky => ["leaky", "none"]

/-- The words for a mode. No word at all stands for the usual one. -/
def Mode.spellings : Mode → List String
  | normal => ["normal", ""]
  | stress => ["stress"]
  | statistics => ["statistics", "stats"]

/-- The words for yes and no. No word at all stands for no. -/
def flagSpellings : Bool → List String
  | true => ["1", "true", "yes", "on"]
  | false => ["0", "false", "no", "off", ""]

theorem Strategy.ofKeyword?_eq_some {word : String} {s : Strategy} : ofKeyword? word = some s ↔ word ∈ s.spellings := by
  unfold ofKeyword?
  split <;> cases s <;> simp_all [spellings]

theorem Mode.ofKeyword?_eq_some {word : String} {m : Mode} : ofKeyword? word = some m ↔ word ∈ m.spellings := by
  unfold ofKeyword?
  split <;> cases m <;> simp_all [spellings]

theorem flag?_eq_some {word : String} {b : Bool} : flag? word = some b ↔ word ∈ flagSpellings b := by
  unfold flag?
  split <;> cases b <;> simp_all [flagSpellings]

/-! ### One setting -/

section

variable {α : Type}

/-- The text spells one of the words for the value. -/
def Expresses (spellings : α → List String) (text : String) (a : α) : Prop := ∃ word ∈ spellings a, Text.Spells text word

/-- The text is a numeral of a number that is a word. -/
def ExpressesWord (text : String) (n : Nat) : Prop := n < wordLimit ∧ Text.Numeral text n

/-- What a text expresses is read from it. A text that expresses nothing is reported as it stands. -/
structure Reads (parse : String → Except ConfigError α) (expresses : String → α → Prop) (report : String → ConfigError) :
    Prop where
  ok : ∀ text a, parse text = .ok a ↔ expresses text a
  error : ∀ text e, parse text = .error e ↔ (∀ a, ¬ expresses text a) ∧ e = report text

theorem Reads.of_option {parse : String → Except ConfigError α} {expresses : String → α → Prop} {report : String → ConfigError}
    {f : String → Option α} (parse_eq : ∀ text, parse text = (f text).elim (.error (report text)) .ok)
    (exact : ∀ text a, f text = some a ↔ expresses text a) : Reads parse expresses report := by
  constructor <;> intro text
  · intro a
    rw [parse_eq, ← exact]
    cases f text <;> simp
  · intro e
    simp only [parse_eq, ← exact]
    cases f text <;> simp [eq_comm]

theorem Reads.of_keyword {parse : String → Except ConfigError α} {report : String → ConfigError} {f : String → Option α}
    {spellings : α → List String} (parse_eq : ∀ text, parse text = (f (Text.keyword text)).elim (.error (report text)) .ok)
    (exact : ∀ word a, f word = some a ↔ word ∈ spellings a) (solid : ∀ a, ∀ word ∈ spellings a, Text.Solid word.toList) :
    Reads parse (Expresses spellings) report := by
  refine .of_option parse_eq fun text a => ?_
  rw [exact]
  constructor
  · exact fun listed => ⟨_, listed, (Text.keyword_eq_iff (solid a _ listed)).1 rfl⟩
  · rintro ⟨word, listed, spells⟩
    exact (Text.keyword_eq_iff (solid a word listed)).2 spells ▸ listed

theorem Strategy.reads : Reads parse (Expresses spellings) .unknownCollector := by
  refine .of_keyword (fun text => ?_) (fun _ _ => ofKeyword?_eq_some) (by intro s; cases s <;> decide)
  unfold parse
  cases ofKeyword? (Text.keyword text) <;> rfl

theorem Mode.reads : Reads parse (Expresses spellings) .unknownMode := by
  refine .of_keyword (fun text => ?_) (fun _ _ => ofKeyword?_eq_some) (by intro m; cases m <;> decide)
  unfold parse
  cases ofKeyword? (Text.keyword text) <;> rfl

theorem reads_flag (key : String) : Reads (parseFlag key) (Expresses flagSpellings) (.invalidFlag key) := by
  refine .of_keyword (fun text => ?_) (fun _ _ => flag?_eq_some) (by intro b; cases b <;> decide)
  unfold parseFlag
  cases flag? (Text.keyword text) <;> rfl

theorem reads_size (key : String) : Reads (parseSize key) ExpressesWord (.invalidNumber key) := by
  refine .of_option (fun text => ?_) fun text n => Text.decimal?_trim
  unfold parseSize
  cases Text.decimal? wordLimit (Text.trim text.toList) <;> rfl

/-- What a setting comes to: what its text expresses, or the default if it is not set. -/
def Given (value : Option String) (expresses : String → α → Prop) (default a : α) : Prop :=
  match value with
  | some text => expresses text a
  | none => a = default

/-- The setting is rejected: it is set, and expresses nothing. -/
def Rejected (value : Option String) (expresses : String → α → Prop) (report : String → ConfigError) (e : ConfigError) : Prop :=
  ∃ text, value = some text ∧ (∀ a, ¬ expresses text a) ∧ e = report text

variable {lookup : String → Option String} {key : String} {parse : String → Except ConfigError α}
  {expresses : String → α → Prop} {report : String → ConfigError} {default a : α} {e : ConfigError}

theorem Config.setting_eq_ok (reads : Reads parse expresses report) :
    setting lookup key parse default = .ok a ↔ Given (lookup key) expresses default a := by
  unfold setting Given
  cases lookup key with
  | none => simp [eq_comm]
  | some text => exact reads.ok text a

theorem Config.setting_eq_error (reads : Reads parse expresses report) :
    setting lookup key parse default = .error e ↔ Rejected (lookup key) expresses report e := by
  unfold setting Rejected
  cases lookup key with
  | none => simp
  | some text => simpa using reads.error text e

end

/-! ### All settings -/

/-- The first of some properties that holds of anything holds of this. -/
def First {ε : Type} : List (ε → Prop) → ε → Prop
  | [], _ => False
  | P :: rest, e => P e ∨ (¬ ∃ other, P other) ∧ First rest e

theorem bind_eq_error_first {ε α β : Type} {x : Except ε α} {f : α → Except ε β} {P : ε → Prop} {rest : List (ε → Prop)} {e : ε}
    (rejected : ∀ e, x = .error e ↔ P e) (later : ∀ a, x = .ok a → (f a = .error e ↔ First rest e)) :
    (x >>= f) = .error e ↔ First (P :: rest) e := by
  cases x with
  | ok a =>
    have none : ¬ ∃ other, P other := fun ⟨other, holds⟩ => nomatch (rejected other).2 holds
    show f a = .error e ↔ _
    rw [later a rfl, First, or_iff_right fun holds => none ⟨e, holds⟩, and_iff_right none]
  | error e' =>
    have some : P e' := (rejected e').1 rfl
    have failed : (Except.error e' >>= f) = .error e ↔ P e :=
      ⟨fun same => by cases same; exact some, fun holds => by cases (rejected e).2 holds; rfl⟩
    rw [failed, First]
    exact (or_iff_left fun other => other.1 ⟨e', some⟩).symm

/-- What follows cannot fail. -/
theorem bind_pure_eq_error {ε α β : Type} {x : Except ε α} {f : α → β} {e : ε} :
    (x >>= fun a => pure (f a)) = .error e ↔ x = .error e := by
  cases x with
  | ok a => exact ⟨nofun, nofun⟩
  | error e' => exact ⟨fun same => by cases same; rfl, fun same => by cases same; rfl⟩

namespace Config

variable {lookup : String → Option String} {c : Config} {e : ConfigError}

/-- The settings express the configuration, which has the defaults for those that are not set. -/
structure Expressed (lookup : String → Option String) (c : Config) : Prop where
  strategy : Given (lookup Setting.collector) (Expresses Strategy.spellings) ({} : Config).strategy c.strategy
  mode : Given (lookup Setting.mode) (Expresses Mode.spellings) ({} : Config).mode c.mode
  leakTolerant : Given (lookup Setting.leakTolerant) (Expresses flagSpellings) ({} : Config).leakTolerant c.leakTolerant
  verifyHeap : Given (lookup Setting.verify) (Expresses flagSpellings) ({} : Config).verifyHeap c.verifyHeap
  heapSize : Given (lookup Setting.heapSize) ExpressesWord ({} : Config).heapSize c.heapSize

/-- The size that is given is refused for this. -/
def Missized (lookup : String → Option String) (bad : Nat → Prop) (report : Nat → ConfigError) (e : ConfigError) : Prop :=
  ∃ size, Given (lookup Setting.heapSize) ExpressesWord ({} : Config).heapSize size ∧ bad size ∧ e = report size

/-- What can be wrong with settings, in the order in which it is reported. -/
def objections (lookup : String → Option String) : List (ConfigError → Prop) := [
  Rejected (lookup Setting.collector) (Expresses Strategy.spellings) .unknownCollector,
  Rejected (lookup Setting.mode) (Expresses Mode.spellings) .unknownMode,
  Rejected (lookup Setting.leakTolerant) (Expresses flagSpellings) (.invalidFlag Setting.leakTolerant),
  Rejected (lookup Setting.verify) (Expresses flagSpellings) (.invalidFlag Setting.verify),
  Rejected (lookup Setting.heapSize) ExpressesWord (.invalidNumber Setting.heapSize),
  Missized lookup (· < smallestHeap) (.heapTooSmall · smallestHeap),
  Missized lookup (¬ wordSize ∣ ·) .misalignedHeap]

theorem ofLookup_eq_ok : ofLookup lookup = .ok c ↔ Expressed lookup c ∧ c.check = .ok () := by
  unfold ofLookup
  simp only [bind_eq_ok, setting_eq_ok Strategy.reads, setting_eq_ok Mode.reads, setting_eq_ok (reads_flag _),
    setting_eq_ok (reads_size _)]
  constructor
  · rintro ⟨strategy, first, mode, second, leakTolerant, third, verifyHeap, fourth, heapSize, fifth, checked⟩
    obtain ⟨u, checked, same⟩ := checked
    cases same
    exact ⟨⟨first, second, third, fourth, fifth⟩, checked⟩
  · rintro ⟨⟨first, second, third, fourth, fifth⟩, checked⟩
    exact ⟨_, first, _, second, _, third, _, fourth, _, fifth, (), checked, rfl⟩

/-- Once the size is read, the check of the configuration is a check of the size that was given. -/
theorem check_eq_error {size : Nat} (given : ∀ other, Given (lookup Setting.heapSize) ExpressesWord ({} : Config).heapSize other ↔
    other = size) (sized : c.heapSize = size) : c.check = .error e ↔
    First [Missized lookup (· < smallestHeap) (.heapTooSmall · smallestHeap),
      Missized lookup (¬ wordSize ∣ ·) .misalignedHeap] e := by
  have missized (bad : Nat → Prop) (report : Nat → ConfigError) (e : ConfigError) :
      Missized lookup bad report e ↔ bad size ∧ e = report size := by
    simp only [Missized, given, exists_eq_left]
  subst sized
  simp only [First, missized, and_false, or_false]
  unfold check
  split
  · next small => simp [small, eq_comm]
  · next large =>
    split
    · next odd =>
      have misaligned : ¬ wordSize ∣ c.heapSize := mt Nat.mod_eq_zero_of_dvd odd
      simp [large, misaligned, eq_comm]
    · next even =>
      have aligned : wordSize ∣ c.heapSize := Nat.dvd_of_mod_eq_zero (Decidable.of_not_not even)
      simp [large, aligned]

theorem ofLookup_eq_error : ofLookup lookup = .error e ↔ First (objections lookup) e := by
  unfold ofLookup objections
  refine bind_eq_error_first (fun e => setting_eq_error Strategy.reads) fun strategy _ => ?_
  refine bind_eq_error_first (fun e => setting_eq_error Mode.reads) fun mode _ => ?_
  refine bind_eq_error_first (fun e => setting_eq_error (reads_flag _)) fun leakTolerant _ => ?_
  refine bind_eq_error_first (fun e => setting_eq_error (reads_flag _)) fun verifyHeap _ => ?_
  refine bind_eq_error_first (fun e => setting_eq_error (reads_size _)) fun heapSize read => ?_
  have given (other : Nat) : Given (lookup Setting.heapSize) ExpressesWord ({} : Config).heapSize other ↔ other = heapSize := by
    rw [← setting_eq_ok (reads_size Setting.heapSize), read]
    simp [eq_comm]
  exact bind_pure_eq_error.trans (check_eq_error given rfl)

/-- All settings are set, and spell the configuration: its names and flags in any of their words, in small letters or
capitals, and its size in decimal, with any blanks around them. -/
structure Renders (lookup : String → Option String) (c : Config) : Prop where
  strategy : ∃ text, lookup Setting.collector = some text ∧ Expresses Strategy.spellings text c.strategy
  mode : ∃ text, lookup Setting.mode = some text ∧ Expresses Mode.spellings text c.mode
  leakTolerant : ∃ text, lookup Setting.leakTolerant = some text ∧ Expresses flagSpellings text c.leakTolerant
  verifyHeap : ∃ text, lookup Setting.verify = some text ∧ Expresses flagSpellings text c.verifyHeap
  heapSize : ∃ text, lookup Setting.heapSize = some text ∧ Text.Padded text (toString c.heapSize).toList

theorem given_of_some {α : Type} {value : Option String} {expresses : String → α → Prop} {default a : α}
    (set : ∃ text, value = some text ∧ expresses text a) : Given value expresses default a := by
  obtain ⟨text, rfl, expressed⟩ := set
  exact expressed

theorem Renders.expressed (renders : Renders lookup c) (word : c.heapSize < wordLimit) : Expressed lookup c := by
  obtain ⟨text, set, padded⟩ := renders.heapSize
  have numeral : Text.Numeral text c.heapSize := by
    rw [Nat.toString_eq_repr, Nat.toList_repr] at padded
    exact ⟨[], 0, .inl rfl, padded⟩
  exact ⟨given_of_some renders.strategy, given_of_some renders.mode, given_of_some renders.leakTolerant,
    given_of_some renders.verifyHeap, given_of_some ⟨text, set, word, numeral⟩⟩

/-- A configuration that is valid is read back from every way to spell it. What is read from any settings at all is the
configuration that they express, with the defaults of those that are not set, and it is valid. Otherwise the first thing
that is wrong is reported: the strategy, the mode, the two flags and the size in this order, each with its text as it
stands, then a size that is too small, then one that is misaligned. -/
theorem ofLookup_exact (lookup : String → Option String) :
    (∀ c, smallestHeap ≤ c.heapSize → wordSize ∣ c.heapSize → c.heapSize < wordLimit → Renders lookup c →
      ofLookup lookup = .ok c) ∧
    (∀ c, ofLookup lookup = .ok c ↔ Expressed lookup c ∧ c.check = .ok ()) ∧
    (∀ e, ofLookup lookup = .error e ↔ First (objections lookup) e) := by
  refine ⟨fun c large aligned word renders => ?_, fun c => ofLookup_eq_ok, fun e => ofLookup_eq_error⟩
  exact ofLookup_eq_ok.2 ⟨renders.expressed word, check_eq_ok.2 ⟨large, aligned⟩⟩

/-- All settings of a process. -/
def environment (collector mode leakTolerant verify heapSize : String) (key : String) : Option String :=
  [(Setting.collector, collector), (Setting.mode, mode), (Setting.leakTolerant, leakTolerant), (Setting.verify, verify),
    (Setting.heapSize, heapSize)].lookup key

/-- Words in capitals and blanks of several kinds spell a configuration. Where two settings are wrong, the mode is reported
before the size. -/
theorem ofLookup_exact_of_capitals :
    ofLookup (environment "\u2003SemiSpace" "STATS\n" "Yes" " " "\t8192 ") =
      .ok { strategy := .copying, mode := .statistics, leakTolerant := true, heapSize := 8192 } ∧
    ofLookup (environment "leaky" " fast" "" "" "-1") = .error (.unknownMode " fast") := by
  constructor
  · refine (ofLookup_exact _).1 _ (by decide) (by decide) (by decide) ?_
    constructor
    case strategy =>
      exact ⟨"\u2003SemiSpace", by decide +kernel, "semispace", by decide, "SemiSpace".toList,
        ⟨['\u2003'], [], by decide +kernel, by decide, by decide⟩, by decide +kernel⟩
    case mode =>
      exact ⟨"STATS\n", by decide +kernel, "stats", by decide, "STATS".toList,
        ⟨[], ['\n'], by decide +kernel, by decide, by decide⟩, by decide +kernel⟩
    case leakTolerant =>
      exact ⟨"Yes", by decide +kernel, "yes", by decide, "Yes".toList,
        ⟨[], [], by decide +kernel, by decide, by decide⟩, by decide +kernel⟩
    case verifyHeap =>
      exact ⟨" ", by decide +kernel, "", by decide, [], ⟨[' '], [], by decide +kernel, by decide, by decide⟩, by decide +kernel⟩
    case heapSize =>
      exact ⟨"\t8192 ", by decide +kernel, ['\t'], [' '], by decide +kernel, by decide, by decide⟩
  · refine ((ofLookup_exact _).2.2 _).2 ?_
    have leaky : Strategy.parse "leaky" = .ok .leaky := by decide +kernel
    have fast (m : Mode) : ¬ Expresses Mode.spellings " fast" m := fun expressed => by
      cases m <;> exact absurd ((Mode.reads.ok _ _).2 expressed) (by decide +kernel)
    refine .inr ⟨?_, .inl ⟨" fast", by decide +kernel, fast, rfl⟩⟩
    rintro ⟨other, text, set, nothing, -⟩
    cases (show some "leaky" = some text from set ▸ by decide +kernel)
    exact nothing _ ((Strategy.reads.ok _ _).1 leaky)

end Config

end TracingHeap
