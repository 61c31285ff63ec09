import MiniSharp.Files.Path

namespace MiniSharp

structure ProjectConfig where
  sdk : Text
  framework : Text
  name : Text
  directory : Text

namespace ProjectConfig

def orElse (t default : Text) : Text := if t = [] then default else t

def completed (c : ProjectConfig) : ProjectConfig where
  sdk := orElse c.sdk "dotnet"
  framework := orElse c.framework "net6.0"
  name := orElse c.name "MACSLangGeneratedApp"
  directory := orElse c.directory "."

def isPlain (name : Text) : Bool :=
  name != Path.here && name != Path.parent && !name.contains Path.slash &&
    !name.contains Text.backslash && Path.base name == name

end ProjectConfig

structure Project where
  config : ProjectConfig
  directory : Text

namespace Project

def sourceFile : Text := "GeneratedProgram.cs"

def file (framework : Text) : Text :=
  "<Project Sdk=\"Microsoft.NET.Sdk\">\n" ++
  "  <PropertyGroup>\n" ++
  "    <OutputType>Exe</OutputType>\n" ++
  "    <TargetFramework>" ++ framework ++ "</TargetFramework>\n" ++
  "    <ImplicitUsings>enable</ImplicitUsings>\n" ++
  "    <Nullable>enable</Nullable>\n" ++
  "    <EnableDefaultCompileItems>false</EnableDefaultCompileItems>\n" ++
  "  </PropertyGroup>\n" ++
  "  <ItemGroup>\n" ++
  "    <Compile Include=\"" ++ sourceFile ++ "\" />\n" ++
  "  </ItemGroup>\n" ++
  "</Project>\n"

def fileName (name : Text) : Text := name ++ ".csproj"

def sourcePath (p : Project) : Text := Path.join [p.directory, sourceFile]

def filePath (p : Project) : Text := Path.join [p.directory, fileName p.config.name]

def assemblyPath (p : Project) : Text :=
  Path.join [p.directory, "bin", "Debug", p.config.framework, p.config.name ++ ".dll"]

def buildArguments (p : Project) : List Text :=
  ["build", p.directory, "-c", "Debug", "--nologo"]

def runArguments (p : Project) : List Text := ["exec", p.assemblyPath]

end Project

end MiniSharp
