import Codebook.Proofs.Reader
import Codebook.Proofs.Phrase

namespace Codebook

/-- The same token on another line. -/
def Token.mapLine (f : Nat → Nat) (t : Token) : Token :=
  { t with line := f t.line }

/-- The same rejection on another line, with the token that was found. -/
def Rejection.mapLine (f : Nat → Nat) : Rejection → Rejection
  | unexpectedToken expected found reason => unexpectedToken expected (found.mapLine f) reason
  | unknownCategory value line => unknownCategory value (f line)
  | overflow lexeme limit line => overflow lexeme limit (f line)

/-- The same reading with its rejections on other lines. -/
def Reading.mapLine (f : Nat → Nat) (r : Reading) : Reading :=
  { r with rejections := r.rejections.map (Rejection.mapLine f) }

variable {f : Nat → Nat}

theorem Declaration.Step.fill_mapLine {step : Step} (h : step ∈ steps) {t : Token}
    (hk : t.kind = step.kind) (e : Entry) :
    step.fill (t.mapLine f) e = (step.fill t e).mapError (Rejection.mapLine f) := by
  have hlexeme : (t.mapLine f).lexeme = t.lexeme := rfl
  exact fill_of_lexeme h hk (fun _ => hlexeme) rfl (fun _ => rfl) e

namespace Reader

open Declaration

theorem after_mapLine (e : Entry) {steps : List Step} (h : steps <:+ Declaration.steps.tail) :
    (after e steps h).2.map (Except.mapError (Rejection.mapLine f)) = (after e steps h).2 := by
  cases steps <;> rfl

theorem finish_mapLine (r : Reader) (found : Token) :
    r.finish (found.mapLine f) = (r.finish found).map (Except.mapError (Rejection.mapLine f)) := by
  cases r <;> rfl

theorem meet_mapLine {step : Step} {steps : List Step} (hstep : step ∈ Declaration.steps)
    (h : steps <:+ Declaration.steps.tail) (t : Token) (e : Entry) :
    meet step steps e h (t.mapLine f) = ((meet step steps e h t).1,
      (meet step steps e h t).2.map (Except.mapError (Rejection.mapLine f))) := by
  have hkind : (t.mapLine f).kind = t.kind := rfl
  rw [meet, meet, hkind]
  by_cases hk : t.kind = step.kind
  · rw [if_pos hk, if_pos hk, Step.fill_mapLine hstep hk]
    cases step.fill t e with
    | error r => rfl
    | ok e' => exact Prod.ext rfl (after_mapLine e' h).symm
  · rw [if_neg hk, if_neg hk]
    rfl

theorem feed_mapLine (r : Reader) (t : Token) : r.feed (t.mapLine f) =
    ((r.feed t).1, (r.feed t).2.map (Except.mapError (Rejection.mapLine f))) := by
  cases r with
  | ready => exact meet_mapLine List.mem_cons_self _ t .blank
  | within step steps e proper =>
    exact meet_mapLine (List.mem_of_mem_tail (proper.subset List.mem_cons_self)) _ t e
  | skipping => rfl

theorem outcomes_mapLine (r : Reader) (last : Token) (ts : List Token) :
    r.outcomes (last.mapLine f) (ts.map (Token.mapLine f)) =
      (r.outcomes last ts).map (Except.mapError (Rejection.mapLine f)) := by
  induction ts generalizing r last with
  | nil => exact finish_mapLine r last
  | cons t ts ih =>
    have hkind : (t.mapLine f).kind = t.kind := rfl
    rw [List.map_cons, outcomes, outcomes, hkind]
    by_cases ht : t.kind = .endOfFile
    · rw [if_pos ht, if_pos ht, finish_mapLine]
    · rw [if_neg ht, if_neg ht, feed_mapLine, ih, List.map_append]

end Reader

theorem Reading.limited_mapLine (limit : Option Nat) (rejected : Nat)
    (outcomes : List (Except Rejection Entry)) :
    limited limit rejected (outcomes.map (Except.mapError (Rejection.mapLine f))) =
      (limited limit rejected outcomes).mapLine f := by
  induction outcomes generalizing rejected with
  | nil => rfl
  | cons outcome outcomes ih =>
    cases outcome with
    | ok e =>
      rw [List.map_cons, Except.mapError, limited, ih]
      rfl
    | error r =>
      rw [List.map_cons, Except.mapError, limited, limited, List.isEmpty_map, ih]
      split <;> rfl

theorem Reading.ofOutcomes_mapLine (outcomes : List (Except Rejection Entry)) :
    ofOutcomes (outcomes.map (Except.mapError (Rejection.mapLine f))) =
      (ofOutcomes outcomes).mapLine f := by
  rw [← limited_none 0, limited_mapLine, limited_none]

/-- Tokens on other lines are read the same way, whatever the limit. -/
theorem Reading.ofTokens_mapLine (limit : Option Nat) (ts : List Token) :
    ofTokens limit (ts.map (Token.mapLine f)) = (ofTokens limit ts).mapLine f := by
  rw [ofTokens_eq_limited limit (Token.mapLine f (.endOfFile 1)), Reader.outcomes_mapLine,
    limited_mapLine, ← ofTokens_eq_limited]

theorem lineBehind_append_left (front before : List Char) :
    lineBehind (front ++ before) = lineBehind before + front.count '\n' := by
  rw [lineBehind, lineBehind, List.count_append]
  omega

theorem Tiles.further {before rest : List Char} {tiles : List Tile} {tokens : List Token}
    (h : Tiles before tiles rest tokens) (front : List Char) :
    Tiles (front ++ before) tiles rest
      (tokens.map (Token.mapLine (· + front.count '\n'))) := by
  induction h with
  | nil => exact .nil
  | @endOfFile before t hgap htext =>
    have htile : Tiles (front ++ before) [t] [] _ := .endOfFile hgap htext
    rw [List.append_assoc, lineBehind_append_left] at htile
    exact htile
  | @error before rest t message hm =>
    have htile : Tiles (front ++ before) [t] rest _ := .error hm
    rw [List.append_assoc, lineBehind_append_left] at htile
    exact htile
  | @token before rest lexeme t tiles kind tokens hs hafter _ ih =>
    rw [← List.append_assoc] at ih
    have htiles := Tiles.token hs hafter ih
    rw [List.append_assoc, lineBehind_append_left] at htiles
    exact htiles

theorem Lexes.further {before cs : List Char} {tokens : List Token} (h : Lexes before cs tokens)
    (front : List Char) :
    Lexes (front ++ before) cs (tokens.map (Token.mapLine (· + front.count '\n'))) := by
  obtain ⟨tiles, rest, hcs, htiles⟩ := h
  exact ⟨tiles, rest, hcs, htiles.further front⟩

end Codebook
