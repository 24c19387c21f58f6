import NetService.Lib.CString
import NetService.Lib.Loop

/-!
# The console of `main`

`main` starts the services and reads lines from the console until one is `exit`; then it calls
`OnStop`.  The loops of `Net.cc` and of `Gate.cpp` are the same.  `std::cin` is what the console still
gives, up to the end of its input, and whether no flag of the stream is set.

`getline` sets `failbit` when the array is full before the end of the line, and `eofbit` at the end of
the input, and no more is read then.  The loop does not look at the flags, so that it goes round for
ever with an empty line; `stops_iff` says when it comes to `OnStop`.
-/

namespace NetService
namespace Console

open Loop

/-- `'\n'` -/
def newline : UInt8 := 10

/-- `std::cin`; `good` when no flag is set. -/
structure Cin where
  rest : List UInt8
  good : Bool

/-- `cin.getline(s, n)`: the characters stored in `s` in front of the `'\0'`. -/
def Cin.getline (n : ℕ) (cin : Cin) : List UInt8 × Cin :=
  if cin.good then
    let line := cin.rest.takeWhile (· ≠ newline)
    if line.length < n then
      match cin.rest.drop line.length with
      | [] => (line, ⟨[], false⟩)
      | _ :: rest => (line, ⟨rest, true⟩)
    else (cin.rest.take (n - 1), ⟨cin.rest.drop (n - 1), false⟩)
  else ([], cin)

/-- The string in an array that is zero behind `bs`. -/
def string (bs : List UInt8) : List UInt8 := bs.takeWhile (· ≠ 0)

/-- `"exit"` -/
def exitCommand : List UInt8 := CString.ascii "exit"

/-- One round of the loop of `main`. -/
def round (cin : Cin) : Pass Cin Cin Empty :=
  let (cmdbuf, cin) := cin.getline 128
  if string cmdbuf = exitCommand then .done cin else .next cin

/-! ### `getline` -/

theorem takeWhile_line {line rest : List UInt8} (h : newline ∉ line)
    (hrest : rest = [] ∨ ∃ after, rest = newline :: after) :
    (line ++ rest).takeWhile (· ≠ newline) = line := by
  rw [List.takeWhile_append_of_pos]
  · rcases hrest with rfl | ⟨after, rfl⟩ <;> simp
  · intro b hb
    simpa using ne_of_mem_of_not_mem hb h

theorem getline_line {line : List UInt8} (h : newline ∉ line) {n : ℕ} (hlen : line.length < n)
    (after : List UInt8) :
    Cin.getline n ⟨line ++ newline :: after, true⟩ = (line, ⟨after, true⟩) := by
  have htake := takeWhile_line h (.inr ⟨after, rfl⟩)
  simp only [Cin.getline, htake, if_pos hlen, List.drop_left, if_true]

theorem getline_last {line : List UInt8} (h : newline ∉ line) {n : ℕ} (hlen : line.length < n) :
    Cin.getline n ⟨line, true⟩ = (line, ⟨[], false⟩) := by
  have htake := @takeWhile_line line [] h (.inl rfl)
  rw [List.append_nil] at htake
  simp only [Cin.getline, htake, if_pos hlen, List.drop_length, if_true]

theorem getline_long {line rest : List UInt8} (h : newline ∉ line)
    (hrest : rest = [] ∨ ∃ after, rest = newline :: after) {n : ℕ} (hlen : n ≤ line.length) :
    ∃ left, Cin.getline n ⟨line ++ rest, true⟩ = (line.take (n - 1), ⟨left, false⟩) := by
  have htake := takeWhile_line h hrest
  refine ⟨(line ++ rest).drop (n - 1), ?_⟩
  simp only [Cin.getline, htake, if_neg (Nat.not_lt.2 hlen), if_true]
  rw [List.take_append_of_le_length (by omega)]

theorem getline_failed (n : ℕ) (rest : List UInt8) :
    Cin.getline n ⟨rest, false⟩ = ([], ⟨rest, false⟩) := rfl

/-- What is left begins with a line. -/
theorem exists_line (bs : List UInt8) :
    ∃ line rest, bs = line ++ rest ∧ newline ∉ line ∧
      (rest = [] ∨ ∃ after, rest = newline :: after) := by
  by_cases h : newline ∈ bs
  · obtain ⟨line, after, rfl, hline⟩ := List.eq_append_cons_of_mem h
    exact ⟨line, _, rfl, hline, .inr ⟨after, rfl⟩⟩
  · exact ⟨bs, [], (List.append_nil bs).symm, h, .inl rfl⟩

/-! ### The loop -/

/-- Behind lines of at most 127 bytes there is one that is `exit` up to its first zero byte. -/
inductive Exits : List UInt8 → Prop
  | here {line rest : List UInt8} (h : newline ∉ line)
      (hrest : rest = [] ∨ ∃ after, rest = newline :: after) (hexit : string line = exitCommand) :
      Exits (line ++ rest)
  | later {line after : List UInt8} (h : newline ∉ line) (hlen : line.length ≤ 127)
      (hafter : Exits after) : Exits (line ++ newline :: after)

/-- An array that is too short for the line has room for the command. -/
theorem string_take (line : List UInt8) :
    string (line.take 127) = exitCommand ↔ string line = exitCommand := by
  have htake : string (line.take 127) = (string line).take 127 := by
    unfold string
    rw [List.take_takeWhile]
  have hlength : exitCommand.length = 4 := by decide
  rw [htake]
  constructor
  · intro h
    have hmin := congrArg List.length h
    rw [List.length_take, hlength] at hmin
    rwa [List.take_of_length_le (by omega)] at h
  · intro h
    rw [h, List.take_of_length_le (by omega)]

theorem string_nil : string [] ≠ exitCommand := by decide

theorem round_eq {cin cin' : Cin} {cmdbuf : List UInt8} (h : cin.getline 128 = (cmdbuf, cin')) :
    round cin = if string cmdbuf = exitCommand then .done cin' else .next cin' := by
  rw [round, h]

theorem round_exit {line rest : List UInt8} (h : newline ∉ line)
    (hrest : rest = [] ∨ ∃ after, rest = newline :: after) (hexit : string line = exitCommand) :
    ∃ cin, round ⟨line ++ rest, true⟩ = .done cin := by
  by_cases hlen : line.length < 128
  · rcases hrest with rfl | ⟨after, rfl⟩
    · exact ⟨_, by rw [List.append_nil, round_eq (getline_last h hlen), if_pos hexit]⟩
    · exact ⟨_, by rw [round_eq (getline_line h hlen after), if_pos hexit]⟩
  · obtain ⟨left, hget⟩ := getline_long h hrest (Nat.not_lt.1 hlen)
    exact ⟨_, by rw [round_eq hget, if_pos ((string_take line).2 hexit)]⟩

theorem round_line {line : List UInt8} (h : newline ∉ line) (hlen : line.length ≤ 127)
    (hexit : string line ≠ exitCommand) (after : List UInt8) :
    round ⟨line ++ newline :: after, true⟩ = .next ⟨after, true⟩ := by
  rw [round_eq (getline_line h (Nat.lt_succ_of_le hlen) after), if_neg hexit]

/-- A flag is set behind the last line, and in a line that is too long. -/
theorem round_fails {line rest : List UInt8} (h : newline ∉ line)
    (hrest : rest = [] ∨ ∃ after, rest = newline :: after) (hexit : string line ≠ exitCommand)
    (hend : rest = [] ∨ 127 < line.length) :
    ∃ left, round ⟨line ++ rest, true⟩ = .next ⟨left, false⟩ := by
  by_cases hlen : line.length < 128
  · have hlast : rest = [] := hend.resolve_right (by omega)
    refine ⟨[], ?_⟩
    rw [hlast, List.append_nil, round_eq (getline_last h hlen), if_neg hexit]
  · obtain ⟨left, hget⟩ := getline_long h hrest (Nat.not_lt.1 hlen)
    refine ⟨left, ?_⟩
    rw [round_eq hget]
    exact if_neg fun htake => hexit ((string_take line).1 htake)

theorem round_failed (rest : List UInt8) : round ⟨rest, false⟩ = .next ⟨rest, false⟩ := by
  rw [round_eq (getline_failed 128 rest), if_neg string_nil]

theorem ends_of_exits {input : List UInt8} (h : Exits input) :
    ∃ cin, Ends round ⟨input, true⟩ (.ok cin) := by
  induction h with
  | here h hrest hexit =>
    obtain ⟨cin, hround⟩ := round_exit h hrest hexit
    exact ⟨cin, .done hround⟩
  | @later line after h hlen _ ih =>
    by_cases hexit : string line = exitCommand
    · obtain ⟨cin, hround⟩ := round_exit h (.inr ⟨after, rfl⟩) hexit
      exact ⟨cin, .done hround⟩
    · obtain ⟨cin, hends⟩ := ih
      exact ⟨cin, hends.next (round_line h hlen hexit after)⟩

theorem diverges_of_not_exits {input : List UInt8} (h : ¬ Exits input) :
    Diverges round ⟨input, true⟩ := by
  refine diverges_of_invariant round (fun cin => cin.good = true → ¬ Exits cin.rest) ?_ fun _ => h
  rintro ⟨bs, good⟩ hbs
  cases good with
  | false => exact ⟨_, round_failed bs, nofun⟩
  | true =>
    obtain ⟨line, rest, rfl, hline, hrest⟩ := exists_line bs
    have hexit : string line ≠ exitCommand := fun hexit => hbs rfl (.here hline hrest hexit)
    by_cases hend : rest = [] ∨ 127 < line.length
    · obtain ⟨left, hround⟩ := round_fails hline hrest hexit hend
      exact ⟨_, hround, nofun⟩
    · rw [not_or, Nat.not_lt] at hend
      obtain ⟨after, rfl⟩ := hrest.resolve_left hend.1
      exact ⟨_, round_line hline hend.2 hexit after,
        fun _ hafter => hbs rfl (.later hline hend.2 hafter)⟩

/-- The loop of `main` is left, and `OnStop` is called, exactly if the console gives `exit` as a line
and no line before it has more than 127 bytes; otherwise `main` goes round for ever. -/
theorem stops_iff (input : List UInt8) :
    ((∃ cin, Ends round ⟨input, true⟩ (.ok cin)) ↔ Exits input) ∧
      (¬ Exits input → Diverges round ⟨input, true⟩) := by
  refine ⟨⟨?_, ends_of_exits⟩, diverges_of_not_exits⟩
  rintro ⟨cin, hends⟩
  by_contra h
  exact (diverges_of_not_exits h).not_ends _ hends

end Console
end NetService
