import Positional.Proofs.Program.Rebuilt
import Positional.Proofs.Schema.Traces

/-!
# Slots that never vanish

What has a scalar, an array or a union outside optional and nullable fields leaves a trace of every
document. A slot around such a schema is told present again whatever it holds.
-/

namespace Positional

namespace Schema

mutual

/-- Has a scalar, an array or a union outside optional and nullable fields. -/
def solid : Schema → Bool
  | object fields => solidFields fields
  | optional _ | nullable _ => false
  | refined accepts inner => isBytesCheck accepts || inner.solid
  | _ => true

def solidFields : List (String × Schema) → Bool
  | [] => false
  | (_, schema) :: rest => schema.solid || solidFields rest

end

/-- Beneath optional and nullable wrappings and refinements there is neither null nor an object that
is not solid. -/
def anchored : Schema → Bool
  | optional inner | nullable inner => inner.anchored
  | refined accepts inner => isBytesCheck accepts || inner.anchored
  | null => false
  | object fields => solidFields fields
  | _ => true

mutual

theorem traces_of_solid : (schema : Schema) → schema.solid = true → schema.traces slot = true
  | .object fields, h => tracesFields_of_solid fields h
  | .refined accepts inner, h => by
    rw [solid, Bool.or_eq_true] at h
    rw [traces, Bool.or_eq_true]
    exact h.imp_right (traces_of_solid inner)
  | .union _ _, _ | .string, _ | .boolean, _ | .number _, _ | .date, _ | .null, _ | .enum _, _
  | .literal _, _ | .array _, _ | .transformed _, _ | .bigint, _ | .any, _ => rfl

theorem tracesFields_of_solid : (fields : List (String × Schema)) → solidFields fields = true →
    tracesFields fields slot = true
  | (_, schema) :: rest, h => by
    rw [solidFields, Bool.or_eq_true] at h
    rw [tracesFields, Bool.or_eq_true]
    exact h.imp (traces_of_solid schema) (tracesFields_of_solid rest)

end

theorem shows_of_anchored : (schema : Schema) → schema.anchored = true → schema.shows v = true
  | .object fields, h => tracesFields_of_solid fields h
  | .optional inner, h | .nullable inner, h => shows_of_anchored inner h
  | .refined accepts inner, h => by
    rw [anchored, Bool.or_eq_true] at h
    rw [shows, Bool.or_eq_true]
    exact h.imp_right (shows_of_anchored inner)
  | .union _ _, _ | .string, _ | .boolean, _ | .number _, _ | .date, _ | .enum _, _
  | .literal _, _ | .array _, _ | .transformed _, _ | .bigint, _ | .any, _ => rfl

end Schema

/-- A slot around an anchored schema never vanishes. -/
theorem Compiled.anchored (h : Compiled schema path frame) (hn : schema.wellNamed = true)
    (ha : schema.anchored = true) : Anchored path frame.blocks :=
  fun _ _ _ hw hx hv => (h.shows_iff hn hw hx hv).mp (Schema.shows_of_anchored schema ha)

end Positional
