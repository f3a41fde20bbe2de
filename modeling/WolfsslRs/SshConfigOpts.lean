import WolfsslRs.Delimited
import WolfsslRs.SshAuthorizedKeys
/-!
# SshConfigOpts — iterating over the options of a key (`ConfigOpts`, `authorized_keys.rs`)

The options of a key are validated once, when they are made, and cut at their commas whenever they are iterated over; the
iterator relies on the validation and panics on what it would have refused.  On every accepted text the iteration ends
without a panic, and the options are the pieces between the commas outside quotes (`options_iterated`).
-/
namespace Wolf
namespace Ssh

open Program Delimited

/-- Options that were validated; there is no other way to make them. -/
structure ConfigOpts where
  string : Text
  valid : ConfigOptsIter.validate string = .ok ()

def ConfigOpts.new (string : Text) : Except Exit ConfigOpts :=
  match h : ConfigOptsIter.validate string with
  | .ok () => .ok ⟨string, h⟩
  | .error e => .error e

/-- The iterator holds what is left of the text. -/
def ConfigOpts.iter (opts : ConfigOpts) : Text := opts.string

/-- `Iterator::next`, with the rest of the text behind the option. -/
def ConfigOptsIter.next (s : Text) : Except Exit (Option (Text × Text)) :=
  match tryNext s with
  | .error (.error _) => .error (.panic "malformed options string")
  | r => r

/-- A `for` over the iterator, left after `n` calls of `next`. -/
def ConfigOptsIter.collectUpTo : Nat → Text → Except Exit (List Text)
  | 0, _ => .error .running
  | n + 1, s => do
    match ← next s with
    | none => .ok []
    | some (item, rest) => do
      let items ← collectUpTo n rest
      .ok (item :: items)

namespace ConfigOptsIter

/-- **The scanner stops at the first cut**, counting quotes from the start of the whole text. -/
theorem scan_piece : ∀ (front s : Text) {next rest : Text},
    scan (decide (front.count doubleQuote % 2 = 1)) s = .ok (next, rest) → ReadsPiece ',' doubleQuote front s next rest
  | front, [], _, _, h => by
    cases h
    exact readsPiece_nil
  | front, c :: s, next, rest, h => by
    have hcount : (front ++ [c]).count doubleQuote = front.count doubleQuote + if c = doubleQuote then 1 else 0 := by
      rw [List.count_append, List.count_singleton]
      simp only [beq_iff_eq]
    unfold scan at h
    split at h
    · rename_i hcomma
      obtain ⟨rfl, hopen⟩ := hcomma
      cases h
      have hodd := of_decide_eq_false hopen
      exact readsPiece_cut (cut_here.2 ⟨rfl, by omega⟩)
    · rename_i hcomma
      have hcut : ¬ Cut ',' doubleQuote (front ++ c :: s) front.length := fun h => by
        obtain ⟨hc, heven⟩ := cut_here.1 h
        exact hcomma ⟨hc, decide_eq_false (by omega)⟩
      split at h
      · rename_i hquote
        obtain ⟨⟨next', rest'⟩, hs, h⟩ := bind_ok.1 h
        cases h
        have hflip : decide ((front.count doubleQuote + 1) % 2 = 1) = !decide (front.count doubleQuote % 2 = 1) := by
          rw [← decide_not, decide_eq_decide]
          omega
        refine readsPiece_cons (scan_piece (front ++ [c]) s ?_) hcut
        rw [hcount, if_pos hquote, hflip]
        exact hs
      · rename_i hquote
        split at h
        · obtain ⟨⟨next', rest'⟩, hs, h⟩ := bind_ok.1 h
          cases h
          refine readsPiece_cons (scan_piece (front ++ [c]) s ?_) hcut
          rw [hcount, if_neg hquote]
          exact hs
        · cases h

/-- **On accepted text `next` does not panic**, and takes the scanner's option. -/
theorem next_cons {c : Char} {s : Text} (h : ∀ d ∈ c :: s, optionChar d = true) :
    ∃ item rest, scan false (c :: s) = .ok (item, rest) ∧ next (c :: s) = .ok (some (item, rest)) := by
  obtain ⟨⟨item, rest⟩, hscan⟩ := scan_total false h
  have htry : tryNext (c :: s) = .ok (some (item, rest)) := bind_ok.2 ⟨_, hscan, rfl⟩
  refine ⟨item, rest, hscan, ?_⟩
  unfold next
  rw [htry]

/-- The options, joined, are the text up to a comma at its end. -/
def JoinsTo (items : List Text) (s : Text) : Prop := s = [','].intercalate items ∨ s = [','].intercalate items ++ [',']

theorem joinsTo_cons {items : List Text} {item rest : Text} (h : JoinsTo items rest) (hrest : rest ≠ [] ↔ items ≠ []) :
    JoinsTo (item :: items) (item ++ ',' :: rest) := by
  by_cases hitems : items = []
  · have hnil : rest = [] := not_not.1 fun hr => hrest.1 hr hitems
    rw [hnil, hitems]
    exact .inr (by rw [List.intercalate_singleton])
  · rw [JoinsTo, intercalate_cons_of_ne_nil hitems]
    rcases h with h | h
    · exact .inl (by rw [h])
    · exact .inr (by rw [h, List.append_assoc, List.cons_append])

theorem collectUpTo_next {s item rest : Text} {items : List Text} (hnext : next s = .ok (some (item, rest)))
    (hlt : rest.length < s.length) (h : ∀ n, rest.length < n → collectUpTo n rest = .ok items) :
    ∀ n, s.length < n → collectUpTo n s = .ok (item :: items)
  | 0, hn => absurd hn (Nat.not_lt_zero _)
  | n + 1, hn => bind_ok.2 ⟨_, hnext, bind_ok.2 ⟨_, h n (by omega), rfl⟩⟩

theorem collectUpTo_nil : ∀ n, ([] : Text).length < n → collectUpTo n [] = .ok []
  | 0, hn => absurd hn (Nat.not_lt_zero _)
  | _ + 1, _ => rfl

/-- **The iteration over accepted text**, from a cut of a text on: it ends, and its options are the pieces from there. -/
theorem collect_pieces : ∀ (m : Nat) (front s : Text), s.length < m → (∀ c ∈ s, optionChar c = true) →
    front.count doubleQuote % 2 = 0 → (front.length = 0 ∨ Cut ',' doubleQuote (front ++ s) (front.length - 1)) →
    ∃ items, (∀ n, s.length < n → collectUpTo n s = .ok items) ∧ (s ≠ [] ↔ items ≠ []) ∧ JoinsTo items s ∧
      ∀ k item, items[k]? = some item → Piece ',' doubleQuote (front ++ s) item (front.length + startOf items k)
  | 0, _, s, hm, _, _, _ => absurd hm (Nat.not_lt_zero _)
  | m + 1, front, [], _, _, _, _ => by
    exact ⟨[], collectUpTo_nil, by simp, .inl rfl, fun k item h => by simp at h⟩
  | m + 1, front, c :: s, hm, hall, heven, hstart => by
    obtain ⟨item, rest, hscan, hnext⟩ := next_cons hall
    obtain ⟨hchars, hshorter⟩ := scan_ok hscan
    have hlt : rest.length < (c :: s).length := hshorter (List.cons_ne_nil _ _)
    have hquoted : decide (front.count doubleQuote % 2 = 1) = false := decide_eq_false (by omega)
    have hreads := scan_piece front (c :: s) (by rw [hquoted]; exact hscan)
    have hpiece := hreads.piece hstart
    rcases hreads.ends with ⟨hitem, hrest⟩ | ⟨htext, hcut⟩
    · -- the last option, with no comma behind it
      subst hrest
      refine ⟨[item], collectUpTo_next hnext hlt collectUpTo_nil, by simp, .inl ?_, fun k p hp => ?_⟩
      · rw [List.intercalate_singleton, hitem]
      · cases k with
        | zero =>
          obtain rfl : item = p := by simpa using hp
          exact hpiece
        | succ k => simp at hp
    · -- an option up to a cut: the rest is iterated over from behind the comma
      rw [htext] at hpiece hcut ⊢
      have hwhole : front ++ (item ++ ',' :: rest) = (front ++ item ++ [',']) ++ rest := by
        simp only [List.append_assoc, List.singleton_append]
      have hlen : (front ++ item ++ [',']).length = front.length + item.length + 1 := by
        simp only [List.length_append, List.length_singleton]
      obtain ⟨items, hcollect, hne, hjoins, hpieces⟩ := collect_pieces m (front ++ item ++ [',']) rest (by omega)
        (hchars.1 hall) (hcut.even_front (by decide)) (.inr (by rw [← hwhole, hlen]; exact hcut))
      refine ⟨item :: items, ?_, by simp, joinsTo_cons hjoins hne, fun k p hp => ?_⟩
      · rw [← htext]
        exact collectUpTo_next hnext hlt hcollect
      · cases k with
        | zero =>
          obtain rfl : item = p := by simpa using hp
          exact hpiece
        | succ k =>
          have hlater := hpieces k p (by simpa using hp)
          rw [← hwhole, hlen] at hlater
          rw [startOf_cons_succ, ← Nat.add_assoc, ← Nat.add_assoc]
          exact hlater

end ConfigOptsIter

theorem ConfigOpts.new_ok {s : Text} {opts : ConfigOpts} (h : ConfigOpts.new s = .ok opts) : opts.string = s := by
  unfold ConfigOpts.new at h
  split at h
  · cases h
    rfl
  · cases h

theorem ConfigOpts.new_string (opts : ConfigOpts) : ConfigOpts.new opts.string = .ok opts := by
  unfold ConfigOpts.new
  split
  · rfl
  · rename_i e h
    rw [opts.valid] at h
    cases h

/-- **Iterating over options that were accepted** ends without a panic; the options are the pieces between the commas
outside quotes, and joined they are the text up to one comma at its end. -/
theorem options_iterated (s : Text) (opts : ConfigOpts) (h : ConfigOpts.new s = .ok opts) :
    ∃ items, (∀ n, s.length < n → ConfigOptsIter.collectUpTo n opts.iter = .ok items) ∧
      (∀ k item, items[k]? = some item → Piece ',' doubleQuote s item (startOf items k)) ∧
      (s = [','].intercalate items ∨ s = [','].intercalate items ++ [',']) := by
  have hstring := ConfigOpts.new_ok h
  subst hstring
  obtain ⟨items, hcollect, _, hjoins, hpieces⟩ := ConfigOptsIter.collect_pieces (opts.string.length + 1) [] opts.string
    (Nat.lt_succ_self _) (ConfigOptsIter.validate_ok.1 opts.valid) rfl (.inl rfl)
  refine ⟨items, hcollect, fun k item hk => ?_, hjoins⟩
  have hpiece := hpieces k item hk
  rw [List.length_nil, Nat.zero_add] at hpiece
  exact hpiece

def commandOptions : Text := "command=\"a,b\",,no-pty,".toList

theorem options_iterated_command : ∃ opts, ConfigOpts.new commandOptions = .ok opts ∧
    ∃ items, (∀ n, commandOptions.length < n → ConfigOptsIter.collectUpTo n opts.iter = .ok items) ∧
      (∀ k item, items[k]? = some item → Piece ',' doubleQuote commandOptions item (startOf items k)) ∧
      (commandOptions = [','].intercalate items ∨ commandOptions = [','].intercalate items ++ [',']) :=
  have hall : commandOptions.all optionChar = true := by decide
  have hvalid : ConfigOptsIter.validate commandOptions = .ok () := ConfigOptsIter.validate_ok.2 (List.all_eq_true.1 hall)
  have hnew : ConfigOpts.new commandOptions = .ok ⟨commandOptions, hvalid⟩ := ConfigOpts.new_string ⟨commandOptions, hvalid⟩
  ⟨⟨commandOptions, hvalid⟩, hnew, options_iterated _ _ hnew⟩

example : ConfigOptsIter.collectUpTo 30 commandOptions =
    .ok ["command=\"a,b\"".toList, [], "no-pty".toList] := by decide

end Ssh
end Wolf
