import BuilderForge.Text.Basic
/-
  The starter manifest, which shows a new user one entity with each kind of member.
-/

namespace BuilderForge.Command

/-- The lines of the starter manifest. -/
def starterLines : List String :=
  ["# Entities to generate fluent builders for.",
   "",
   "[generator]",
   "# marker = \"Kelunik\\\\Builders\\\\Builder\"",
   "printer = \"psr\"",
   "output = \"generated\"",
   "known_types = []",
   "",
   "[[entities]]",
   "name = \"App\\\\Model\\\\User\"",
   "",
   "[[entities.properties]]",
   "name = \"email\"",
   "type = \"string\"",
   "",
   "[[entities.properties]]",
   "name = \"createdAt\"",
   "doc = \"/** @var \\\\DateTimeImmutable|null */\"",
   "",
   "[[entities.methods]]",
   "name = \"setName\"",
   "",
   "[[entities.methods.params]]",
   "name = \"name\"",
   "type = \"?string\"",
   "default = \"null\""]

/-- The starter manifest. -/
def starterManifest : Text := starterLines.flatMap fun l => l.toList ++ ['\n']

end BuilderForge.Command
