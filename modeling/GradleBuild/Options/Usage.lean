import GradleBuild.Options.Arguments

/-!
# The wording of help and of refused arguments
-/

namespace GradleBuild

/-- What an argument is refused for, in words. -/
def ArgumentError.message : ArgumentError → String
  | unknown argument => "unexpected argument '" ++ argument ++ "' found"
  | invalidValue option value =>
    if value.isEmpty then "a value is required for '" ++ option.title ++ "' but none was supplied"
    else "invalid value '" ++ value ++ "' for '" ++ option.title ++ "'"
  | invalidLevel option value =>
    "invalid value '" ++ value ++ "' for '" ++ option.title ++ "': a level is a number from 0 to 5"
  | unneededValue flag value => "unexpected value '" ++ value ++ "' for '" ++ flag.title ++ "' found"
  | repeated switch => "the argument '" ++ switch.title ++ "' cannot be used multiple times"
  | missingComponent => "the argument '" ++ Setting.component.title ++ "' was not provided"
  | notUnicode => "an argument is no text"
  | helpRequested => "help was asked for"
  | versionRequested => "the version was asked for"

/-- The options in short. -/
def usage : List String := [
  "Builds the library of a Gradle project or its documentation and collects the results.",
  "",
  "Usage: scp-build [OPTIONS] --component <COMPONENT>",
  "",
  "  -c, --component <COMPONENT>   what to build: lib or doc",
  "  -cb, --clean-build            clean before building the library",
  "  -p, --project-root <DIR>      the root of the project",
  "      --config <FILE>           a further configuration file",
  "      --dry                     show the steps and do nothing",
  "  -l, --log-level <LEVEL>       what the console shows, from 0 to 5",
  "      --file-log-level <LEVEL>  what the log file shows, from 0 to 5",
  "      --log-file <FILE>         write a log file",
  "  -s, --set <OPTION>            set a key of the configuration: KEY=VALUE",
  "  -h, --help                    show this help",
  "  -V, --version                 show the version"]

end GradleBuild
