import WolfsslRs.SshKeyFile
/-!
# SshAuthorizedKeys — lines of options and a key (`authorized_keys.rs`)

A line is a key, or options and a key; which of them is told by counting spaces (`fromStr_entry_ok`), and only the scanner
of the options knows of quotes, which make no difference to what it accepts (`ConfigOptsIter.validate_ok`).  So options with
a space in quotes are taken apart, options in front of a key without a comment are not found, and a quote that is not closed
is not noticed (`config_opts_accepted_iff`).
-/
namespace Wolf
namespace Ssh

open Reader Program Delimited

/-! ## Options -/

def doubleQuote : Char := '\x22'

/-- The characters of options, in quotes or not.  The source goes over the bytes of the string, and refuses those of any
other character at the first of them. -/
def optionChar (c : Char) : Bool :=
  ('A' ≤ c && c ≤ 'Z') || ('a' ≤ c && c ≤ 'z') || ('0' ≤ c && c ≤ '9') || ('!' ≤ c && c ≤ '/') || (':' ≤ c && c ≤ '@') ||
    ('[' ≤ c && c ≤ '_') || c = '\x7b' || c = '\x7d' || c = '|' || c = '~'

/-- The loop of `try_next`: the characters of the next option, and what is left behind its comma. -/
def ConfigOptsIter.scan (quoted : Bool) : Text → Except Exit (Text × Text)
  | [] => .ok ([], [])
  | byte :: s =>
    if byte = ',' ∧ quoted = false then .ok ([], s)
    else if byte = doubleQuote then do
      let (next, rest) ← scan (!quoted) s
      .ok (byte :: next, rest)
    else if optionChar byte then do
      let (next, rest) ← scan quoted s
      .ok (byte :: next, rest)
    else .error (.error (.encoding .characterEncoding))

def ConfigOptsIter.tryNext (s : Text) : Except Exit (Option (Text × Text)) :=
  if s.isEmpty then .ok none
  else do
    let next ← scan false s
    .ok (some next)

def ConfigOptsIter.validateUpTo : Nat → Text → Except Exit Unit
  | 0, _ => .error .running
  | n + 1, s => do
    match ← tryNext s with
    | none => .ok ()
    | some (_, rest) => validateUpTo n rest

/-- `validate`: no option is shorter than its comma, or than what is left. -/
def ConfigOptsIter.validate (s : Text) : Except Exit Unit := validateUpTo (s.length + 1) s

/-- What the scanner takes is a front of the text without a foreign character, and the rest is shorter. -/
theorem ConfigOptsIter.scan_ok : ∀ {s next rest : Text} {quoted : Bool}, scan quoted s = .ok (next, rest) →
    ((∀ c ∈ s, optionChar c = true) ↔ ∀ c ∈ rest, optionChar c = true) ∧ (s ≠ [] → rest.length < s.length)
  | [], _, _, _, h => by
    cases h
    exact ⟨Iff.rfl, fun h => absurd rfl h⟩
  | c :: s, next, rest, quoted, h => by
    have hstep : ∀ {quoted' : Bool} {next' rest' : Text}, optionChar c = true → scan quoted' s = .ok (next', rest') →
        rest' = rest → ((∀ c' ∈ c :: s, optionChar c' = true) ↔ ∀ c' ∈ rest, optionChar c' = true) ∧
          (c :: s ≠ [] → rest.length < (c :: s).length) := by
      rintro quoted' next' rest' hc hs rfl
      obtain ⟨hiff, hlen⟩ := scan_ok hs
      refine ⟨by rw [List.forall_mem_cons, hiff, and_iff_right hc], fun _ => ?_⟩
      rw [List.length_cons]
      cases s with
      | nil =>
        cases hs
        exact Nat.zero_lt_one
      | cons d s => exact Nat.lt_succ_of_lt (hlen (List.cons_ne_nil _ _))
    unfold scan at h
    split at h
    · rename_i hcomma
      cases h
      rw [hcomma.1, List.forall_mem_cons]
      exact ⟨and_iff_right (by decide), fun _ => Nat.lt_succ_self _⟩
    · split at h
      · rename_i hquote
        obtain ⟨⟨next', rest'⟩, hs, h⟩ := bind_ok.1 h
        cases h
        exact hstep (by rw [hquote]; decide) hs rfl
      · split at h
        · rename_i hc
          obtain ⟨⟨next', rest'⟩, hs, h⟩ := bind_ok.1 h
          cases h
          exact hstep hc hs rfl
        · cases h

theorem ConfigOptsIter.scan_total : ∀ {s : Text} (quoted : Bool), (∀ c ∈ s, optionChar c = true) →
    ∃ next, scan quoted s = .ok next
  | [], _, _ => ⟨_, rfl⟩
  | c :: s, quoted, h => by
    rw [List.forall_mem_cons] at h
    unfold scan
    split
    · exact ⟨_, rfl⟩
    · split
      · obtain ⟨⟨next, rest⟩, hs⟩ := scan_total (!quoted) h.2
        exact ⟨_, bind_ok.2 ⟨_, hs, rfl⟩⟩
      · rw [if_pos h.1]
        obtain ⟨⟨next, rest⟩, hs⟩ := scan_total quoted h.2
        exact ⟨_, bind_ok.2 ⟨_, hs, rfl⟩⟩

theorem ConfigOptsIter.validateUpTo_ok : ∀ {n : Nat} {s : Text}, s.length < n →
    (validateUpTo n s = .ok () ↔ ∀ c ∈ s, optionChar c = true)
  | n + 1, [], _ => ⟨fun _ => by simp, fun _ => rfl⟩
  | n + 1, c :: s, h => by
    constructor
    · intro hok
      obtain ⟨step, hstep, hok⟩ := bind_ok.1 hok
      obtain ⟨⟨next, rest⟩, hscan, hnext⟩ := bind_ok.1 hstep
      cases hnext
      obtain ⟨hiff, hlen⟩ := scan_ok hscan
      have hlt := hlen (List.cons_ne_nil _ _)
      exact hiff.2 ((validateUpTo_ok (by omega)).1 hok)
    · intro hall
      obtain ⟨⟨next, rest⟩, hscan⟩ := scan_total false hall
      obtain ⟨hiff, hlen⟩ := scan_ok hscan
      have hlt := hlen (List.cons_ne_nil _ _)
      have hstep : tryNext (c :: s) = .ok (some (next, rest)) := bind_ok.2 ⟨_, hscan, rfl⟩
      exact bind_ok.2 ⟨_, hstep, (validateUpTo_ok (by omega)).2 (hiff.1 hall)⟩

/-- **Quotes and commas make no difference to what is accepted**: options are any text of their characters. -/
theorem ConfigOptsIter.validate_ok {s : Text} : validate s = .ok () ↔ ∀ c ∈ s, optionChar c = true :=
  validateUpTo_ok (Nat.lt_succ_self _)

/-! ## Entries -/

structure Entry where
  configOpts : Text
  publicKey : PublicKey
  deriving DecidableEq

section
variable (C : Crates) (T : TextCrates)

/-- Options up to the first space, and a key. -/
def Entry.fromOptions (line : Text) : Except Exit Entry :=
  match splitOnce ' ' line with
  | none => .error formatError
  | some (configOptsStr, publicKeyStr) => do
    ConfigOptsIter.validate configOptsStr
    .ok ⟨configOptsStr, ← PublicKey.fromOpenssh C T publicKeyStr⟩

def Entry.fromStr (line : Text) : Except Exit Entry :=
  match line.count ' ' with
  | 0 => .error formatError
  | 1 | 2 => do .ok ⟨[], ← PublicKey.fromOpenssh C T line⟩
  | _ =>
    match PublicKey.fromOpenssh C T line with
    | .ok publicKey => .ok ⟨[], publicKey⟩
    | .error (.panic message) => .error (.panic message)
    | .error .running => .error .running
    | .error _ => Entry.fromOptions C T line

end

/-! ## A key behind options -/

/-- **What is assumed of the base64 reader besides**: a text that is read to its end is base64, and so has no `-` and no
`@`. -/
structure TextCrates.Strict (T : TextCrates) : Prop extends TextCrates.RoundTrips T, TextCrates.Lawful T where
  alphabet : ∀ t reader, T.base64Reader t = .ok reader → reader.complete = true → '-' ∉ t ∧ '@' ∉ t

section
variable {C : Crates} {T : TextCrates}

theorem trimEnd_append_of_ne (x : Text) {y : Text} (h : trimEnd y ≠ []) : trimEnd (x ++ y) = x ++ trimEnd y := by
  have hne : (y.reverse.dropWhile isWhitespace).isEmpty = false := by
    rw [List.isEmpty_eq_false_iff]
    intro hnil
    exact h (congrArg List.reverse hnil)
  unfold trimEnd
  rw [List.reverse_append, List.dropWhile_append, hne, if_neg Bool.false_ne_true, List.reverse_append, List.reverse_reverse]

/-- A field is all of the text, or goes to the first space. -/
theorem decodeSegment_eq : ∀ {t field rest : Text}, decodeSegment t = .ok (field, rest) →
    t = field ∧ rest = [] ∨ t = field ++ ' ' :: rest
  | [], _, _, h => by
    cases h
    exact .inl ⟨rfl, rfl⟩
  | c :: t, field, rest, h => by
    unfold decodeSegment at h
    split at h
    · obtain ⟨⟨field', rest'⟩, ht, h⟩ := bind_ok.1 h
      cases h
      rcases decodeSegment_eq ht with ⟨rfl, rfl⟩ | rfl
      · exact .inl ⟨rfl, rfl⟩
      · exact .inr rfl
    · split at h
      · rename_i hspace
        cases h
        exact .inr (by rw [hspace, List.nil_append])
      · cases h

theorem decodeSegment_space {x u field rest : Text} (hx : ' ' ∉ x)
    (h : decodeSegment (x ++ ' ' :: u) = .ok (field, rest)) : field = x ∧ rest = u := by
  have hfield := not_mem_space_of_segment (segment_of_decodeSegment h)
  rcases decodeSegment_eq h with ⟨rfl, -⟩ | heq
  · exact absurd (by simp) hfield
  · exact split_space hfield hx heq.symm

theorem field_of_fromOpenssh {opts k : Text} {key : PublicKey} (hopts : ' ' ∉ opts)
    (h : PublicKey.fromOpenssh C T (opts ++ ' ' :: k) = .ok key) : opts = key.keyData.algorithm.asStr := by
  obtain ⟨encapsulation, -, hformat, -, -, -, hname, -⟩ := fromOpenssh_ok.1 h
  obtain ⟨rest, rest', hid, hdata, -, -, hne⟩ := decode_segments hformat
  have hfront := List.rdropWhile_prefix isWhitespace (opts ++ ' ' :: k)
  obtain ⟨tail, htail⟩ := hfront
  rcases decodeSegment_eq hid with ⟨-, rfl⟩ | heq
  · exact absurd (congrArg Prod.fst (Except.ok.inj hdata)).symm hne
  · change trimEnd _ ++ tail = _ at htail
    rw [heq, List.append_assoc, List.cons_append] at htail
    rw [← hname]
    exact (split_space (not_mem_space_of_segment (segment_of_decodeSegment hid)) hopts htail).1.symm

/-- **A key with something in front of it is not read as a key**: the name of its algorithm would be the base64. -/
theorem not_fromOpenssh_behind (hT : T.Strict) {opts k : Text} {key key' : PublicKey} (hopts : ' ' ∉ opts)
    (hk : PublicKey.fromOpenssh C T k = .ok key) : PublicKey.fromOpenssh C T (opts ++ ' ' :: k) ≠ .ok key' := by
  intro h
  obtain ⟨encapsulation, reader, hformat, -, hrun, -, hname, -⟩ := fromOpenssh_ok.1 hk
  obtain ⟨encapsulation', reader', hformat', hdata', -, hcomplete', -, -⟩ := fromOpenssh_ok.1 h
  have hmarked : '-' ∈ encapsulation.algorithmId ∨ '@' ∈ encapsulation.algorithmId := by
    rw [hname]
    exact marked_of_decode hrun
  obtain ⟨rest, -, hid, -, -, hne, -⟩ := decode_segments hformat
  obtain ⟨rest', _, hid', hbase, -⟩ := decode_segments hformat'
  have htrim : trimEnd k ≠ [] := by
    intro hnil
    rw [hnil] at hid
    exact hne (congrArg Prod.fst (Except.ok.inj hid)).symm
  have hwhole : trimEnd (opts ++ ' ' :: k) = opts ++ ' ' :: trimEnd k := by
    have hsplit := trimEnd_append_of_ne (opts ++ [' ']) htrim
    simpa using hsplit
  -- the second field of the whole line is the first of the key
  rw [hwhole] at hid'
  rw [(decodeSegment_space hopts hid').2, hid] at hbase
  have hsame : encapsulation.algorithmId = encapsulation'.base64Data := congrArg Prod.fst (Except.ok.inj hbase)
  obtain ⟨hdash, hat⟩ := hT.alphabet _ _ hdata' hcomplete'
  rw [← hsame] at hdash hat
  exact hmarked.elim hdash hat

/-! ## What is accepted -/

theorem not_mem_space {opts : Text} (h : ∀ c ∈ opts, optionChar c = true) : ' ' ∉ opts := by
  intro hmem
  have hno : optionChar ' ' = false := by decide
  rw [h _ hmem] at hno
  cases hno

theorem fromOptions_ok {line : Text} {entry : Entry} : Entry.fromOptions C T line = .ok entry ↔
    ∃ k, line = entry.configOpts ++ ' ' :: k ∧ (∀ c ∈ entry.configOpts, optionChar c = true) ∧
      PublicKey.fromOpenssh C T k = .ok entry.publicKey := by
  unfold Entry.fromOptions
  constructor
  · intro h
    split at h
    · cases h
    · rename_i opts k hsplit
      obtain ⟨_, hvalid, h⟩ := bind_ok.1 h
      obtain ⟨key, hkey, h⟩ := bind_ok.1 h
      cases h
      exact ⟨k, (splitOnce_eq_some.1 hsplit).1, ConfigOptsIter.validate_ok.1 hvalid, hkey⟩
  · rintro ⟨k, hline, hopts, hkey⟩
    rw [splitOnce_eq_some.2 ⟨hline, not_mem_space hopts⟩]
    exact bind_ok.2 ⟨(), ConfigOptsIter.validate_ok.2 hopts, bind_ok.2 ⟨_, hkey, rfl⟩⟩

/-- **What an accepted line is**: a key, or, with three spaces or more and if it is no key, options and a key. -/
theorem fromStr_entry_ok (hC : C.Lawful) (hT : T.Lawful) {line : Text} {entry : Entry} :
    Entry.fromStr C T line = .ok entry ↔
      (1 ≤ line.count ' ' ∧ entry.configOpts = [] ∧ PublicKey.fromOpenssh C T line = .ok entry.publicKey) ∨
      (3 ≤ line.count ' ' ∧ (∀ key, PublicKey.fromOpenssh C T line ≠ .ok key) ∧ ∃ k,
        line = entry.configOpts ++ ' ' :: k ∧ (∀ c ∈ entry.configOpts, optionChar c = true) ∧
          PublicKey.fromOpenssh C T k = .ok entry.publicKey) := by
  have hbare : (do .ok (Entry.mk [] (← PublicKey.fromOpenssh C T line)) : Except Exit Entry) = .ok entry ↔
      entry.configOpts = [] ∧ PublicKey.fromOpenssh C T line = .ok entry.publicKey := by
    rw [bind_ok]
    constructor
    · rintro ⟨key, hkey, h⟩
      cases h
      exact ⟨rfl, hkey⟩
    · rintro ⟨hnil, hkey⟩
      refine ⟨_, hkey, ?_⟩
      rw [← hnil]
  unfold Entry.fromStr
  split
  · rename_i hcount
    rw [hcount]
    exact ⟨nofun, fun h => by omega⟩
  · rename_i hcount
    rw [hcount, hbare]
    exact ⟨fun h => .inl ⟨by omega, h⟩, fun h => h.elim And.right fun h => by omega⟩
  · rename_i hcount
    rw [hcount, hbare]
    exact ⟨fun h => .inl ⟨by omega, h⟩, fun h => h.elim And.right fun h => by omega⟩
  · rename_i h0 h1 h2
    change ¬ _ at h0 h1 h2
    have hcount : 3 ≤ line.count ' ' := by omega
    rw [and_iff_right hcount, and_iff_right (Nat.le_trans (by decide) hcount), ← fromOptions_ok]
    cases hkey : PublicKey.fromOpenssh C T line with
    | ok key =>
      refine ⟨fun h => ?_, fun h => ?_⟩
      · cases h
        exact .inl ⟨rfl, rfl⟩
      · obtain ⟨hnil, h⟩ | ⟨hno, -⟩ := h
        · rw [Except.ok.inj h, ← hnil]
        · exact absurd rfl (hno key)
    | error e =>
      -- an error, and not a panic
      have herr := errs_fromOpenssh hC hT line e hkey
      cases e with
      | panic message => exact herr.elim
      | running => exact herr.elim
      | error e => exact ⟨fun h => .inr ⟨nofun, h⟩, fun h => h.elim (fun h => nomatch h.2) And.right⟩
      | signature e => exact ⟨fun h => .inr ⟨nofun, h⟩, fun h => h.elim (fun h => nomatch h.2) And.right⟩

theorem lined_of_fromStr (hC : C.Lawful) (hT : T.Lawful) {line : Text} {entry : Entry} (hlen : line.len ≤ C.sizeMax)
    (h : Entry.fromStr C T line = .ok entry) :
    (∃ comment, entry.publicKey.Lined C comment) ∧ ∀ c ∈ entry.configOpts, optionChar c = true := by
  obtain ⟨-, hnil, hkey⟩ | ⟨-, -, k, hline, hopts, hkey⟩ := (fromStr_entry_ok hC hT).1 h
  · rw [hnil]
    exact ⟨lined_of_fromOpenssh hT hlen hkey, by simp⟩
  · have hk : Text.len k ≤ C.sizeMax := by
      have hsum := Text.len_append entry.configOpts (' ' :: k)
      rw [← hline, Text.len_cons] at hsum
      omega
    exact ⟨lined_of_fromOpenssh hT hk hkey, hopts⟩

theorem mem_of_fromStr (hC : C.Lawful) (hT : T.Strict) {line : Text} {entry : Entry}
    (h : Entry.fromStr C T line = .ok entry) :
    ∀ c ∈ entry.configOpts ++ asStrLossy T entry.publicKey.comment, c ∈ line := by
  obtain ⟨-, hnil, hkey⟩ | ⟨-, -, k, hline, -, hkey⟩ := (fromStr_entry_ok hC hT.toLawful).1 h
  · rw [hnil, List.nil_append]
    exact mem_of_fromOpenssh hT.toRoundTrips hkey
  · intro c hc
    rw [hline]
    rcases List.mem_append.1 hc with hc | hc
    · exact List.mem_append_left _ hc
    · exact List.mem_append_right _ (List.mem_cons_of_mem _ (mem_of_fromOpenssh hT.toRoundTrips hkey c hc))

theorem ConfigOptsIter.errs_scan : ∀ (quoted : Bool) (s : Text), Errs (ConfigOptsIter.scan quoted s)
  | _, [] => errs_ok
  | quoted, _ :: s => errs_ite errs_ok (errs_ite (errs_bind (errs_scan (!quoted) s) fun _ => errs_ok)
      (errs_ite (errs_bind (errs_scan quoted s) fun _ => errs_ok) (errs_error trivial)))

theorem ConfigOptsIter.errs_validateUpTo : ∀ {n : Nat} {s : Text}, s.length < n → Errs (validateUpTo n s)
  | n + 1, [], _ => errs_ok
  | n + 1, c :: s, h => by
    intro e he
    cases hscan : scan false (c :: s) with
    | error e' =>
      have hstep : validateUpTo (n + 1) (c :: s) = .error e' := by
        show (scan false (c :: s) >>= _) >>= _ = _
        rw [hscan]
        rfl
      rw [hstep] at he
      rw [← Except.error.inj he]
      exact errs_scan _ _ e' hscan
    | ok next =>
      obtain ⟨next, rest⟩ := next
      have hlt := (scan_ok hscan).2 (List.cons_ne_nil _ _)
      have hstep : validateUpTo (n + 1) (c :: s) = validateUpTo n rest := by
        show (scan false (c :: s) >>= _) >>= _ = _
        rw [hscan]
        rfl
      rw [hstep] at he
      exact errs_validateUpTo (by omega) e he

/-- **Reading an entry fails without a panic.** -/
theorem errs_fromStr_entry (hC : C.Lawful) (hT : T.Lawful) (line : Text) : Errs (Entry.fromStr C T line) := by
  have hkey := errs_fromOpenssh hC hT
  have hbare : ∀ line, Errs (do .ok (Entry.mk [] (← PublicKey.fromOpenssh C T line)) : Except Exit Entry) :=
    fun line => errs_bind (hkey line) fun _ => errs_ok
  have hoptions : Errs (Entry.fromOptions C T line) := by
    unfold Entry.fromOptions
    split
    · exact errs_error trivial
    · exact errs_bind (ConfigOptsIter.errs_validateUpTo (Nat.lt_succ_self _)) fun _ =>
        errs_bind (hkey _) fun _ => errs_ok
  unfold Entry.fromStr
  split
  · exact errs_error trivial
  · exact hbare line
  · exact hbare line
  · split
    · exact errs_ok
    · rename_i hpanic
      exact absurd hpanic fun h => hkey line _ h
    · rename_i hrunning
      exact absurd hrunning fun h => hkey line _ h
    · exact hoptions

/-! ## Quotes -/

/-- Whether quotes are open at the end of options; `none` if they have a space that is not in quotes. -/
def quoteState : Bool → Text → Option Bool
  | quoted, [] => some quoted
  | quoted, c :: opts =>
    if c = doubleQuote then quoteState (!quoted) opts
    else if c = ' ' ∧ quoted = false then none
    else quoteState quoted opts

theorem mem_doubleQuote_of_quoteState : ∀ {opts : Text}, quoteState false opts = some true → doubleQuote ∈ opts
  | [], h => by cases h
  | c :: opts, h => by
    unfold quoteState at h
    split at h
    · rename_i hc
      rw [hc]
      exact List.mem_cons_self ..
    · split at h
      · cases h
      · exact List.mem_cons_of_mem _ (mem_doubleQuote_of_quoteState h)

theorem not_fromOpenssh_quote {opts k : Text} {key : PublicKey} (hspace : ' ' ∉ opts) (hquote : doubleQuote ∈ opts) :
    PublicKey.fromOpenssh C T (opts ++ ' ' :: k) ≠ .ok key := by
  intro h
  obtain ⟨encapsulation, -, hformat, -, -, -, hname, -⟩ := fromOpenssh_ok.1 h
  have hsegment := (decode_format_ok hformat).1
  rw [hname, ← field_of_fromOpenssh hspace h] at hsegment
  exact absurd (hsegment _ hquote) (by decide)

/-- **Options in front of a key** are accepted if they have no foreign character and the key two spaces. -/
theorem fromStr_options_iff (hC : C.Lawful) (hT : T.Strict) {opts k : Text} {key : PublicKey} (hne : opts ≠ [])
    (hkey : PublicKey.fromOpenssh C T k = .ok key) : Entry.fromStr C T (opts ++ ' ' :: k) = .ok ⟨opts, key⟩ ↔
      (∀ c ∈ opts, optionChar c = true) ∧ 2 ≤ k.count ' ' := by
  have hcount : ∀ {opts k : Text}, ' ' ∉ opts → (opts ++ ' ' :: k).count ' ' = k.count ' ' + 1 := by
    intro opts k hspace
    rw [List.count_append, List.count_cons_self, List.count_eq_zero.2 hspace, Nat.zero_add]
  rw [fromStr_entry_ok hC hT.toLawful]
  constructor
  · rintro (⟨-, hnil, -⟩ | ⟨hthree, -, k', hline, hopts, -⟩)
    · exact absurd hnil hne
    · rw [hcount (not_mem_space hopts)] at hthree
      exact ⟨hopts, by omega⟩
  · rintro ⟨hopts, htwo⟩
    have hspace := not_mem_space hopts
    refine .inr ⟨?_, fun _ => not_fromOpenssh_behind hT hspace hkey, k, rfl, hopts, hkey⟩
    rw [hcount hspace]
    omega

end

namespace Rfc4648

theorem mem_of_idxOf {c : Char} {n : Nat} (h : alphabet.idxOf? c = some n) : c ∈ alphabet := by
  by_contra hno
  rw [List.idxOf?_eq_none_iff.2 hno] at h
  cases h

theorem mem_alphabet_of_decode (t : Text) : (decode t).2 = true → ∀ c ∈ t, c ∈ alphabet ∨ c = '=' := by
  fun_induction decode t with
  | case1 a b c d t x y hb ha hpad =>
    intro _
    rw [hpad.1, hpad.2.1, hpad.2.2]
    simp [mem_of_idxOf ha, mem_of_idxOf hb]
  | case2 a b c d t x y hb ha _ z hc hpad =>
    intro _
    rw [hpad.1, hpad.2]
    simp [mem_of_idxOf ha, mem_of_idxOf hb, mem_of_idxOf hc]
  | case3 a b c d t x y hb ha _ z hc _ w hd bytes complete hdecode ih =>
    intro hcomplete
    rw [hdecode] at ih
    have ih := ih hcomplete
    simp only [List.forall_mem_cons]
    exact ⟨.inl (mem_of_idxOf ha), .inl (mem_of_idxOf hb), .inl (mem_of_idxOf hc), .inl (mem_of_idxOf hd), ih⟩
  | case4 | case5 | case6 =>
    intro hfalse
    cases hfalse
  | case7 t _ =>
    intro hempty
    rw [List.isEmpty_iff.1 hempty]
    simp

theorem lineCrates_strict : lineCrates.Strict where
  toRoundTrips := lineCrates_roundTrips
  errs := crates_lawful.errs
  readable_le := crates_lawful.readable_le
  alphabet := by
    rintro t _ ⟨⟩ hcomplete
    have hmem := mem_alphabet_of_decode t hcomplete
    exact ⟨fun h => absurd (hmem _ h) (by decide), fun h => absurd (hmem _ h) (by decide)⟩

end Rfc4648

/-- **When options are found.**  Options with every quote closed, and spaces only in quotes, are accepted in front of a key
just when they have no foreign character, and so no space, and the key has two spaces, as it has in front of a comment.
A line whose first field has an open quote is rejected just when it could not be accepted in the same way. -/
theorem config_opts_accepted_iff (C : Crates) (T : TextCrates) (hC : C.Lawful) (hT : T.Strict) :
    (∀ opts k key, opts ≠ [] → quoteState false opts = some false → PublicKey.fromOpenssh C T k = .ok key →
      (Entry.fromStr C T (opts ++ ' ' :: k) = .ok ⟨opts, key⟩ ↔
        (∀ c ∈ opts, optionChar c = true) ∧ 2 ≤ k.count ' ')) ∧
    (∀ opts k, ' ' ∉ opts → quoteState false opts = some true →
      ((∃ e, Entry.fromStr C T (opts ++ ' ' :: k) = .error e ∧ e.IsErr) ↔
        ¬ ((∀ c ∈ opts, optionChar c = true) ∧ 2 ≤ k.count ' ' ∧ ∃ key, PublicKey.fromOpenssh C T k = .ok key))) ∧
    ∀ line, ' ' ∉ line → Entry.fromStr C T line = .error formatError := by
  refine ⟨fun opts k key hne _ hkey => fromStr_options_iff hC hT hne hkey, fun opts k hspace hopen => ?_,
    fun line hline => ?_⟩
  · have hquote := mem_doubleQuote_of_quoteState hopen
    constructor
    · rintro ⟨e, he, -⟩ ⟨hopts, htwo, key, hkey⟩
      rw [(fromStr_options_iff hC hT (List.ne_nil_of_mem hquote) hkey).2 ⟨hopts, htwo⟩] at he
      cases he
    · intro hno
      cases hresult : Entry.fromStr C T (opts ++ ' ' :: k) with
      | error e => exact ⟨e, rfl, errs_fromStr_entry hC hT.toLawful _ e hresult⟩
      | ok entry =>
        -- an accepted line is not a key, so it has options, and they are the first field
        obtain ⟨-, -, hkey⟩ | ⟨-, -, k', hline, hopts, hkey⟩ := (fromStr_entry_ok hC hT.toLawful).1 hresult
        · exact absurd hkey (not_fromOpenssh_quote hspace hquote)
        · obtain ⟨hfield, rfl⟩ := split_space hspace (not_mem_space hopts) hline
          rw [← hfield] at hopts
          have hentry : entry = ⟨opts, entry.publicKey⟩ := by rw [hfield]
          rw [hentry] at hresult
          have htwo := ((fromStr_options_iff hC hT (List.ne_nil_of_mem hquote) hkey).1 hresult).2
          exact absurd ⟨hopts, htwo, _, hkey⟩ hno
  · unfold Entry.fromStr
    rw [List.count_eq_zero.2 hline]
    rfl

def Sample.keyLine (after : Text) : Text := Sample.text Sample.name (Sample.otherBytes Sample.name) ++ after

def Sample.key (comment : Text) : PublicKey := ⟨Sample.other Sample.name, comment.utf8⟩

def Sample.certAuthority : Text := "cert-authority".toList

def Sample.command : Text := "command=\"echo hi\"".toList

def Sample.openCommand : Text := "command=\"echo".toList

theorem config_opts_accepted_sample :
    Entry.fromStr Rfc4251.wireCrates Rfc4648.lineCrates (Sample.certAuthority ++ ' ' :: Sample.keyLine " a".toList)
      = .ok ⟨Sample.certAuthority, Sample.key "a".toList⟩ ∧
    ∃ e, Entry.fromStr Rfc4251.wireCrates Rfc4648.lineCrates (Sample.openCommand ++ ' ' :: Sample.keyLine [])
      = .error e ∧ e.IsErr := by
  obtain ⟨haccept, hreject, -⟩ := config_opts_accepted_iff Rfc4251.wireCrates Rfc4648.lineCrates
    Rfc4251.wireCrates_roundTrips.toLawful Rfc4648.lineCrates_strict
  constructor
  · have hopts : Sample.certAuthority.all optionChar = true := by decide
    exact (haccept _ _ _ (by decide) (by decide) (by decide +kernel)).2 ⟨List.all_eq_true.1 hopts, by decide +kernel⟩
  · refine (hreject _ _ (by decide) (by decide)).2 fun h => ?_
    exact absurd h.2.1 (by decide +kernel)

/-- Options with a space in quotes are refused, and so are options in front of a key without a comment; a quote that is not
closed is accepted. -/
theorem quoted_options_misread :
    (quoteState false Sample.command = some false ∧
      (PublicKey.fromOpenssh Rfc4251.wireCrates Rfc4648.lineCrates (Sample.keyLine " a".toList)).isOk ∧
      (Entry.fromStr Rfc4251.wireCrates Rfc4648.lineCrates
        (Sample.command ++ ' ' :: Sample.keyLine " a".toList)).isOk = false) ∧
    (quoteState false Sample.certAuthority = some false ∧
      (PublicKey.fromOpenssh Rfc4251.wireCrates Rfc4648.lineCrates (Sample.keyLine [])).isOk ∧
      (Entry.fromStr Rfc4251.wireCrates Rfc4648.lineCrates (Sample.certAuthority ++ ' ' :: Sample.keyLine [])).isOk
        = false) ∧
    (quoteState false Sample.openCommand = some true ∧
      Entry.fromStr Rfc4251.wireCrates Rfc4648.lineCrates (Sample.openCommand ++ ' ' :: Sample.keyLine " a".toList)
        = .ok ⟨Sample.openCommand, Sample.key "a".toList⟩) := by
  decide +kernel

end Ssh
end Wolf
